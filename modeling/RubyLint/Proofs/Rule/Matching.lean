import RubyLint.Proofs.Pattern.Compiled
import RubyLint.Proofs.Syntax.Placement

/-!
# Calls that a pattern has found

* `Node.Sends`          a plain call by one of some names, whose parts then stand in order;
* `Compiled.sends`       a pattern that only matches such calls;
* `CapturesCall`        a condition that captures such a call;
* `Node.WorksOn`        the call on whose result another one is made;
* `capture_inv`, `exists_captured_pair`, `eq_node_of_get?`, ...   what a capture of one child binds.
-/

namespace RubyLint

open Pattern (Condition Derivation Setting)

namespace Node

variable {t : SyntaxTree} {n m r : Node t}

/-- a plain call by one of the names -/
structure Sends (n : Node t) (names : List String) : Prop where
  kind : n.kind = .send
  named : ∃ name ∈ names, n.methodName? = some name

theorem childNode?_zero {rest : List (NodeChild t)} (h : n.children = .node m :: rest) :
    n.childNode? 0 = some m := by
  rw [childNode?, child?, h]
  rfl

theorem childNode?_one {c : NodeChild t} {rest : List (NodeChild t)}
    (h : n.children = c :: .node m :: rest) : n.childNode? 1 = some m := by
  rw [childNode?, child?, h]
  rfl

theorem childNode?_two {c c' : NodeChild t} {rest : List (NodeChild t)}
    (h : n.children = c :: c' :: .node m :: rest) : n.childNode? 2 = some m := by
  rw [childNode?, child?, h]
  rfl

theorem isCall_of_kind (h : n.kind = .send) : n.isCall = true := by
  rw [isCall, h]
  rfl

theorem receiver?_of_children {rest : List (NodeChild t)} (hkind : n.kind = .send)
    (h : n.children = .node r :: rest) : n.receiver? = some r := by
  rw [receiver?, if_pos (isCall_of_kind hkind)]
  exact childNode?_zero h

theorem isCall_of_receiver? (h : n.receiver? = some r) : n.isCall = true := by
  unfold receiver? at h
  split at h
  · next hcall => exact hcall
  · cases h

theorem mem_childNodes_of_receiver? (h : n.receiver? = some r) : r ∈ n.childNodes := by
  unfold receiver? at h
  split at h
  · exact mem_childNodes_of_childNode? h
  · cases h

theorem mem_childNodes_of_mem_arguments (h : m ∈ n.arguments) : m ∈ n.childNodes := by
  unfold arguments at h
  split at h
  · obtain ⟨c, hc, hm⟩ := List.mem_filterMap.1 h
    exact List.mem_filterMap.2 ⟨c, List.mem_of_mem_drop hc, hm⟩
  · exact absurd h List.not_mem_nil

theorem sends_of_children {names : List String} {name : String} {c : NodeChild t}
    {rest : List (NodeChild t)} (hkind : n.kind = .send)
    (h : n.children = c :: .value (.sym name) :: rest) (hname : name ∈ names) : n.Sends names := by
  refine ⟨hkind, name, hname, ?_⟩
  rw [methodName?, hkind]
  show (n.child? 1).bind NodeChild.asSym? = some name
  rw [child?, h]
  rfl

theorem Sends.orders {names : List String} (h : n.Sends names) (ht : t.WellFormed)
    (hnames : ∀ name ∈ names, isUnorderedName name = false) : n.Orders n.callParts := by
  obtain ⟨name, hmem, hname⟩ := h.named
  exact ht.orders_of_methodName? (isCall_of_kind h.kind) hname (hnames name hmem)

theorem Sends.encloses_selector {names : List String} {s : Span} (h : n.Sends names)
    (ht : t.WellFormed) (hnames : ∀ name ∈ names, isUnorderedName name = false)
    (hs : n.loc.selector = some s) : n.Encloses s :=
  ht.encloses_selector (h.orders ht hnames) hs

end Node

/-! ## calls in conditions -/

namespace Pattern.Condition

mutual

def namesOnly (names : List String) : Condition → Bool
  | .literal (.sym name) => names.contains name
  | .capture _ inner => inner.namesOnly names
  | .union branches => namesOnlyEach names branches
  | _ => false

def namesOnlyEach (names : List String) : List Condition → Bool
  | [] => true
  | p :: ps => p.namesOnly names && namesOnlyEach names ps

end

def asksForSend (names : List String) : Condition → List Condition → Bool
  | .kind k, _ :: name :: _ => k == .send && name.namesOnly names
  | _, _ => false

mutual

def sendsOnly (names : List String) : Condition → Bool
  | .capture _ inner => inner.sendsOnly names
  | .exactly head elements => asksForSend names head elements
  | .around head front _ _ _ _ => asksForSend names head front
  | .union branches => sendsOnlyEach names branches
  | _ => false

def sendsOnlyEach (names : List String) : List Condition → Bool
  | [] => true
  | p :: ps => p.sendsOnly names && sendsOnlyEach names ps

end

section
variable {s : Setting} {t : SyntaxTree} {names : List String}

theorem namesOnly_of_mem {ps : List Condition} (h : namesOnlyEach names ps = true) :
    ∀ p ∈ ps, p.namesOnly names = true := by
  induction ps with
  | nil => exact fun p hp => absurd hp List.not_mem_nil
  | cons q ps ih =>
    rw [namesOnlyEach, Bool.and_eq_true] at h
    exact List.forall_mem_cons.2 ⟨h.1, ih h.2⟩

theorem sendsOnly_of_mem {ps : List Condition} (h : sendsOnlyEach names ps = true) :
    ∀ p ∈ ps, p.sendsOnly names = true := by
  induction ps with
  | nil => exact fun p hp => absurd hp List.not_mem_nil
  | cons q ps ih =>
    rw [sendsOnlyEach, Bool.and_eq_true] at h
    exact List.forall_mem_cons.2 ⟨h.1, ih h.2⟩

theorem exists_name_of_holds {p : Condition} (hp : p.namesOnly names = true) {c : NodeChild t}
    (h : p.Holds s c) : ∃ name ∈ names, c = .value (.sym name) := by
  induction p using Condition.ind with
  | plain p hplain =>
    unfold namesOnly at hp
    split at hp
    · next name =>
      obtain ⟨w, rfl, hsame⟩ := h
      cases w with
      | sym name' =>
        obtain rfl : name' = name := by simpa [Value.same] using hsame
        exact ⟨name', List.contains_iff_mem.1 hp, rfl⟩
      | _ => cases hsame
    · exact hplain.elim
    · exact hplain.elim
    · cases hp
  | capture slot inner ih => exact ih hp h
  | union branches ih =>
    obtain ⟨p, hmem, hholds⟩ := holdSome_iff.1 h
    exact ih p hmem (namesOnly_of_mem hp p hmem) hholds
  | _ => cases hp

theorem mem_names_of_holds {p : Condition} (hp : p.namesOnly names = true) {name : String}
    (h : p.Holds s (.value (.sym name) : NodeChild t)) : name ∈ names := by
  obtain ⟨name', hname, heq⟩ := exists_name_of_holds hp h
  obtain rfl : name = name' := Value.sym.inj (NodeChild.value.inj heq)
  exact hname

theorem sends_of_asksForSend {m : Node t} {head : Condition} {ps : List Condition}
    {front rest : List (NodeChild t)} (hp : asksForSend names head ps = true)
    (hhead : head.Holds s (.node m)) (hfront : HoldEach s ps front)
    (hc : m.children = front ++ rest) : m.Sends names := by
  unfold asksForSend at hp
  split at hp
  · rw [Bool.and_eq_true, beq_iff_eq] at hp
    obtain ⟨rfl, hname⟩ := hp
    obtain ⟨n, hn, hkind⟩ := hhead
    obtain rfl := NodeChild.node.inj hn
    obtain ⟨c, cs, rfl, -, c', cs', rfl, hholds, -⟩ := hfront
    obtain ⟨name, hmem, rfl⟩ := exists_name_of_holds hname hholds
    exact Node.sends_of_children hkind hc hmem
  · cases hp

theorem exists_sends_of_holds {p : Condition} (hp : p.sendsOnly names = true) {c : NodeChild t}
    (h : p.Holds s c) : ∃ m, c = .node m ∧ m.Sends names := by
  induction p using Condition.ind with
  | plain p hplain => cases p with
    | capture | exactly | around | union => exact hplain.elim
    | _ => cases hp
  | capture slot inner ih => exact ih hp h
  | exactly head elements _ _ =>
    obtain ⟨m, rfl, hhead, hchildren⟩ := h
    exact ⟨m, rfl, sends_of_asksForSend hp hhead hchildren (List.append_nil _).symm⟩
  | around head front middle arity slot back _ _ _ _ =>
    obtain ⟨m, rfl, hhead, xs, ys, zs, hcut, hfront, -⟩ := h
    exact ⟨m, rfl, sends_of_asksForSend hp hhead hfront (hcut.trans (List.append_assoc _ _ _))⟩
  | union branches ih =>
    rw [sendsOnly] at hp
    obtain ⟨p, hmem, hholds⟩ := holdSome_iff.1 h
    exact ih p hmem (sendsOnly_of_mem hp p hmem) hholds
  | _ => cases hp

end

end Pattern.Condition

/-- a pattern that asks for a plain call by one of the names -/
theorem Pattern.Compiled.sends {p : Pattern} (w : Pattern.Compiled p) (names : List String)
    (hw : w.condition.sendsOnly names = true) {t : SyntaxTree} {n : Node t}
    {caps : Pattern.Captures t} (hm : p.match? n = some caps) : n.Sends names := by
  obtain ⟨d, hd, -⟩ := w.exists_derives hm
  obtain ⟨m, hm, hsends⟩ := Pattern.Condition.exists_sends_of_holds hw hd.holds
  obtain rfl := NodeChild.node.inj hm
  exact hsends

section
variable {s : Setting} {t : SyntaxTree} {names : List String}

/-- where the condition holds, the slot is bound to a call by one of the names, which is the child or
stands below it; nothing else is bound -/
def CapturesCall (s : Setting) (t : SyntaxTree) (slot : Nat) (p : Condition)
    (names : List String) : Prop :=
  ∀ (c : NodeChild t) (d : Derivation t), p.Derives s c d → ∃ r m, c = .node r ∧ r.Covers m ∧
    m.Sends names ∧ d.bindings = [⟨slot, .single (.node m)⟩]

variable {slot : Nat} {p q : Condition} {ps : List Condition}

theorem capturesCall_capture (names : List String) (hp : p.sendsOnly names = true)
    (hslots : p.slots = []) :
    CapturesCall s t slot (.capture slot p) names := by
  intro c d h
  obtain ⟨e, he, rfl⟩ := h.capture_inv
  obtain ⟨m, rfl, hm⟩ := Condition.exists_sends_of_holds hp he.holds
  refine ⟨m, m, rfl, .self m, hm, ?_⟩
  rw [Derivation.bindings, Condition.bindings_eq_nil he hslots, List.nil_append]

theorem CapturesCall.exactly {kind : Kind} (h : CapturesCall s t slot p names)
    (hslots : Condition.slotsEach ps = []) :
    CapturesCall s t slot (.exactly (.kind kind) (p :: ps)) names := by
  intro c d hd
  obtain ⟨n, ds, rfl, -, hds, hbindings⟩ := hd.exactlyKind_inv
  obtain ⟨c, rest, e, es, hchildren, rfl, hfirst, hrest⟩ := hds.cons_inv
  obtain ⟨r, m, rfl, hcovers, hsends, he⟩ := h c e hfirst
  have hr := Node.mem_childNodes_of_childNode? (Node.childNode?_zero hchildren)
  refine ⟨n, m, rfl, .through hr hcovers, hsends, ?_⟩
  rw [hbindings, Derivation.bindingsEach, he, Condition.bindingsEach_eq_nil hrest hslots,
    List.append_nil]

theorem CapturesCall.around {kind : Kind} {arity : Pattern.Arity}
    (h : CapturesCall s t slot p names) :
    CapturesCall s t slot (.around (.kind kind) [p] .wildcard arity none []) names := by
  intro c d hd
  obtain ⟨n, xs, ys, zs, fs, bs, rfl, -, hchildren, hfs, hbs, hbindings⟩ := hd.aroundKind_inv
  obtain ⟨c, rest, e, es, rfl, rfl, hfirst, hnil⟩ := hfs.cons_inv
  obtain ⟨-, rfl⟩ := hnil.nil_inv
  obtain ⟨-, rfl⟩ := hbs.nil_inv
  obtain ⟨r, m, rfl, hcovers, hsends, he⟩ := h c e hfirst
  have hr := Node.mem_childNodes_of_childNode? (Node.childNode?_zero hchildren)
  refine ⟨n, m, rfl, .through hr hcovers, hsends, ?_⟩
  rw [hbindings]
  show e.bindings ++ [] ++ [] = _
  rw [he]
  rfl

theorem CapturesCall.either (h : CapturesCall s t slot p names)
    (h' : CapturesCall s t slot q names) : CapturesCall s t slot (.union [p, q]) names := by
  intro c d hd
  obtain ⟨branch, hbranch, htaken⟩ := hd.union_inv
  rcases List.mem_cons.1 hbranch.mem with rfl | hbranch
  · exact h c d htaken
  · obtain rfl := List.mem_singleton.1 hbranch
    exact h' c d htaken

theorem eq_of_node? {caps : Pattern.Captures t} {d : Derivation t} {m k : Node t}
    (hcaps : ∀ slot, caps.get? slot = Pattern.Captures.lastOf d.bindings slot)
    (hlast : Pattern.Captures.lastOf d.bindings slot = some (.single (.node k)))
    (hm : caps.node? slot = some m) : k = m := by
  rw [Pattern.Captures.node?, hcaps, hlast] at hm
  exact Option.some.inj hm

/-- what a slot is bound to in front stays, if the rest has no capture of the slot -/
theorem lastOf_append {as bs : List (Pattern.Binding t)} (h : ∀ b ∈ bs, b.slot ≠ slot) :
    Pattern.Captures.lastOf (as ++ bs) slot = Pattern.Captures.lastOf as slot := by
  unfold Pattern.Captures.lastOf
  rw [List.reverse_append, List.find?_append]
  have hnone : bs.reverse.find? (fun b => b.slot == slot) = none :=
    List.find?_eq_none.2 fun b hb => by simpa using h b (List.mem_reverse.1 hb)
  rw [hnone, Option.none_or]

theorem lastOf_snoc {bs : List (Pattern.Binding t)} {x : Pattern.Capture t} :
    Pattern.Captures.lastOf (bs ++ [⟨slot, x⟩]) slot = some x := by
  simp [Pattern.Captures.lastOf]

/-- what is bound along a sequence has none of the slots that are not written there -/
theorem slot_ne_of_derivesEach {cs : List (NodeChild t)} {ds : List (Derivation t)}
    (h : Condition.DerivesEach s ps cs ds) (hslot : slot ∉ Condition.slotsEach ps) :
    ∀ b ∈ Derivation.bindingsEach ds, b.slot ≠ slot := by
  intro b hb heq
  have hmem := Condition.slot_mem_slotsEach (fun _ _ _ _ hd => Condition.slot_mem_slots hd) h b hb
  exact hslot (heq ▸ hmem)

theorem CapturesCall.first {kind : Kind} {n : Node t} {d : Derivation t}
    (h : CapturesCall s t slot p names)
    (hd : (Condition.exactly (.kind kind) (p :: ps)).Derives s (.node n) d)
    (hslot : slot ∉ Condition.slotsEach ps) :
    ∃ r m rest, n.kind = kind ∧ n.children = .node r :: rest ∧ r.Covers m ∧ m.Sends names ∧
      Pattern.Captures.lastOf d.bindings slot = some (.single (.node m)) := by
  obtain ⟨k, ds, hk, hkind, hds, hbindings⟩ := hd.exactlyKind_inv
  obtain rfl := NodeChild.node.inj hk
  obtain ⟨c, rest, e, es, hchildren, rfl, hfirst, hrest⟩ := hds.cons_inv
  obtain ⟨r, m, rfl, hcovers, hsends, he⟩ := h c e hfirst
  refine ⟨r, m, rest, hkind, hchildren, hcovers, hsends, ?_⟩
  rw [hbindings, Derivation.bindingsEach, he, lastOf_append (slot_ne_of_derivesEach hrest hslot)]
  exact @lastOf_snoc t slot [] _

end

/-! ## the call before -/

/-- The node is a call, and the other one is the call whose result it is made on. -/
structure Node.WorksOn {t : SyntaxTree} (n m : Node t) (names : List String) : Prop where
  exists_receiver : ∃ r, n.receiver? = some r ∧ r.Covers m
  sends : m.Sends names

theorem CapturesCall.worksOn {s : Setting} {t : SyntaxTree} {slot : Nat} {p : Condition}
    {ps : List Condition} {names : List String} {n : Node t} {d : Derivation t}
    (h : CapturesCall s t slot p names)
    (hd : (Condition.exactly (.kind .send) (p :: ps)).Derives s (.node n) d)
    (hslot : slot ∉ Condition.slotsEach ps) :
    ∃ m, n.WorksOn m names ∧
      Pattern.Captures.lastOf d.bindings slot = some (.single (.node m)) := by
  obtain ⟨r, m, rest, hkind, hchildren, hcovers, hsends, hlast⟩ := h.first hd hslot
  exact ⟨m, ⟨⟨r, Node.receiver?_of_children hkind hchildren, hcovers⟩, hsends⟩, hlast⟩

namespace Node.WorksOn

variable {t : SyntaxTree} {n m : Node t} {names : List String} {s s' : Span}

theorem encloses (ht : t.WellFormed) (h : n.WorksOn m names) (hs : m.Encloses s) :
    n.Encloses s := by
  obtain ⟨r, hr, hcovers⟩ := h.exists_receiver
  have hreceiver := ht.encloses_child (Node.mem_childNodes_of_receiver? hr)
  exact hreceiver.trans ((ht.encloses_covered hcovers).trans hs)

theorem le_receiver (ht : t.WellFormed) (h : n.WorksOn m names) (hs : m.Encloses s) :
    ∃ r, n.receiver? = some r ∧ s.stop ≤ r.span.stop := by
  obtain ⟨r, hr, hcovers⟩ := h.exists_receiver
  exact ⟨r, hr, ((ht.encloses_covered hcovers).trans hs).le.2.2⟩

theorem le_dot (ht : t.WellFormed) (h : n.WorksOn m names) (hn : n.Orders n.callParts)
    (hs : m.Encloses s) (hs' : n.loc.dot = some s') : s.stop ≤ s'.start := by
  obtain ⟨r, hr, hle⟩ := h.le_receiver ht hs
  exact Nat.le_trans hle (hn.receiver_le_dot hr hs')

theorem le_selector (ht : t.WellFormed) (h : n.WorksOn m names) (hn : n.Orders n.callParts)
    (hs : m.Encloses s) (hs' : n.loc.selector = some s') : s.stop ≤ s'.start := by
  obtain ⟨r, hr, hle⟩ := h.le_receiver ht hs
  exact Nat.le_trans hle (hn.receiver_le_selector hr hs')

end Node.WorksOn

/-! ## what is captured -/

namespace Rule

open Pattern (Captures)

variable {t : SyntaxTree}

/-- a capture binds the child last -/
theorem capture_inv {s : Setting} {slot : Nat} {p : Condition} {c : NodeChild t} {d : Derivation t}
    (h : (Condition.capture slot p).Derives s c d) (hp : p.slots = []) :
    p.Holds s c ∧ d.bindings = [⟨slot, .single c⟩] := by
  obtain ⟨e, he, rfl⟩ := h.capture_inv
  refine ⟨he.holds, ?_⟩
  rw [Derivation.bindings, Condition.bindings_eq_nil he hp, List.nil_append]

theorem eq_value_nil_of_absent {s : Setting} {c : NodeChild t}
    (h : (Condition.builtin .absent).Holds s c) : c = .value .nil := by
  have hnil : Pattern.Builtin.absent.holds c = true := h
  cases c with
  | node m => cases hnil
  | value v =>
    cases v with
    | nil => rfl
    | _ => cases hnil

theorem eq_sym_of_literal {s : Setting} {name : String} {c : NodeChild t}
    (h : (Condition.literal (.sym name)).Holds s c) : c = .value (.sym name) := by
  have hname : (Condition.literal (.sym name)).namesOnly [name] = true := by
    simp [Condition.namesOnly]
  obtain ⟨name', hmem, hc⟩ := Condition.exists_name_of_holds hname h
  exact List.mem_singleton.1 hmem ▸ hc

/-- the two children of a plain call, both of which are captured -/
theorem exists_captured_pair {s : Setting} {p q : Condition} {n : Node t} {caps : Captures t}
    {d : Derivation t}
    (hd : (Condition.exactly (.kind .send) [.capture 0 p, .capture 1 q]).Derives s (.node n) d)
    (hp : p.slots = []) (hq : q.slots = [])
    (hcaps : ∀ slot, caps.get? slot = Captures.lastOf d.bindings slot) :
    ∃ a b, n.kind = .send ∧ n.children = [a, b] ∧ p.Holds s a ∧ q.Holds s b ∧
      caps.get? 0 = some (.single a) ∧ caps.get? 1 = some (.single b) := by
  obtain ⟨k, a, b, e, f, hn, hkind, hchildren, ha, hb, hbindings⟩ := hd.pair_inv
  obtain rfl := NodeChild.node.inj hn
  obtain ⟨hpa, he⟩ := capture_inv ha hp
  obtain ⟨hqb, hf⟩ := capture_inv hb hq
  rw [he, hf] at hbindings
  refine ⟨a, b, hkind, hchildren, hpa, hqb, ?_, ?_⟩
  · rw [hcaps, hbindings]
    rfl
  · rw [hcaps, hbindings]
    rfl

section
variable {caps : Captures t} {slot : Nat} {c : NodeChild t}

theorem eq_node_of_get? {m : Node t} (hget : caps.get? slot = some (.single c))
    (h : caps.node? slot = some m) : c = .node m := by
  rw [Captures.node?, hget] at h
  cases c with
  | node k => exact congrArg _ (Option.some.inj h)
  | value v => cases h

theorem eq_sym_of_get? {name : String} (hget : caps.get? slot = some (.single c))
    (h : caps.sym? slot = some name) : c = .value (.sym name) := by
  rw [Captures.sym?, hget] at h
  cases c with
  | node k => cases h
  | value v =>
    cases v with
    | sym name' => exact congrArg _ (congrArg _ (Option.some.inj h))
    | _ => cases h

theorem eq_str_of_get? {text : String} (hget : caps.get? slot = some (.single c))
    (h : caps.str? slot = some text) : c = .value (.str text) := by
  rw [Captures.str?, hget] at h
  cases c with
  | node k => cases h
  | value v =>
    cases v with
    | str text' => exact congrArg _ (congrArg _ (Option.some.inj h))
    | _ => cases h

end

end Rule

end RubyLint
