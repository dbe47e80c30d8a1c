import RubyLint.Proofs.Pattern.Named

/-!
# The condition of a given text

A given text is compiled by evaluation, and `Condition.agrees` compares what comes out with the
condition that is expected.  A match of the pattern is then a derivation of that condition, and the
captures can be read off it.

* `eq_of_agrees`              conditions that agree are equal;
* `slot_mem_slots`, `bindings_eq_nil`   nothing is bound where no capture is written;
* `exactlyKind_inv`, `pair_inv`, `triple_inv`, `aroundKind_inv`   a derivation for a node of a kind
                              with its children;
* `Compiled`                  a pattern with its condition written out;
* `Compiled.exists_derives`   what the captures of a match are;
* `names_ofText`              and what they are called.
-/

namespace RubyLint.Pattern

namespace Condition

mutual

/-- The conditions are written alike. -/
def agrees : Condition → Condition → Bool
  | .wildcard, .wildcard => true
  | .kind k, .kind k' => k == k'
  | .kindIn ks, .kindIn ks' => ks == ks'
  | .literal v, .literal v' => v == v'
  | .capture slot p, .capture slot' p' => slot == slot' && p.agrees p'
  | .exactly p ps, .exactly p' ps' => p.agrees p' && agreesEach ps ps'
  | .around p ps q arity slot qs, .around p' ps' q' arity' slot' qs' =>
    p.agrees p' && agreesEach ps ps' && q.agrees q' && arity == arity' && slot == slot' &&
      agreesEach qs qs'
  | .union ps, .union ps' => agreesEach ps ps'
  | .intersection ps, .intersection ps' => agreesEach ps ps'
  | .negation p, .negation p' => p.agrees p'
  | .parent p, .parent p' => p.agrees p'
  | .descendant p, .descendant p' => p.agrees p'
  | .builtin b, .builtin b' => b == b'
  | .external name args, .external name' args' => name == name' && args == args'
  | .oneOf xs, .oneOf xs' => xs == xs'
  | .param k, .param k' => k == k'
  | _, _ => false

def agreesEach : List Condition → List Condition → Bool
  | [], [] => true
  | p :: ps, p' :: ps' => p.agrees p' && agreesEach ps ps'
  | _, _ => false

end

theorem eq_of_agreesEach {ps ps' : List Condition}
    (h : ∀ p ∈ ps, ∀ p', p.agrees p' = true → p = p') (hs : agreesEach ps ps' = true) :
    ps = ps' := by
  induction ps generalizing ps' with
  | nil =>
    cases ps' with
    | nil => rfl
    | cons p' ps' => cases hs
  | cons p ps ih =>
    cases ps' with
    | nil => cases hs
    | cons p' ps' =>
      rw [agreesEach, Bool.and_eq_true] at hs
      rw [h p List.mem_cons_self p' hs.1, ih (fun q hq => h q (List.mem_cons_of_mem _ hq)) hs.2]

theorem eq_of_agrees {p p' : Condition} (h : p.agrees p' = true) : p = p' := by
  induction p using Condition.ind generalizing p' with
  | plain p hp =>
    cases p with
    | wildcard => cases p' with
      | wildcard => rfl
      | _ => cases h
    | kind k => cases p' with
      | kind k' => exact congrArg _ (beq_iff_eq.1 h)
      | _ => cases h
    | kindIn ks => cases p' with
      | kindIn ks' => exact congrArg _ (beq_iff_eq.1 h)
      | _ => cases h
    | literal v => cases p' with
      | literal v' => exact congrArg _ (beq_iff_eq.1 h)
      | _ => cases h
    | builtin b => cases p' with
      | builtin b' => exact congrArg _ (beq_iff_eq.1 h)
      | _ => cases h
    | external name args => cases p' with
      | external name' args' =>
        rw [agrees, Bool.and_eq_true, beq_iff_eq, beq_iff_eq] at h
        rw [h.1, h.2]
      | _ => cases h
    | oneOf xs => cases p' with
      | oneOf xs' => exact congrArg _ (beq_iff_eq.1 h)
      | _ => cases h
    | param k => cases p' with
      | param k' => exact congrArg _ (beq_iff_eq.1 h)
      | _ => cases h
    | _ => exact hp.elim
  | capture slot inner ih =>
    cases p' with
    | capture slot' inner' =>
      rw [agrees, Bool.and_eq_true, beq_iff_eq] at h
      rw [h.1, ih h.2]
    | _ => cases h
  | exactly head elements ihh ihe =>
    cases p' with
    | exactly head' elements' =>
      rw [agrees, Bool.and_eq_true] at h
      rw [ihh h.1, eq_of_agreesEach (fun p hp _ => ihe p hp) h.2]
    | _ => cases h
  | around head front middle arity slot back ihh ihf ihm ihb =>
    cases p' with
    | around head' front' middle' arity' slot' back' =>
      simp only [agrees, Bool.and_eq_true, beq_iff_eq] at h
      obtain ⟨⟨⟨⟨⟨hh, hf⟩, hm⟩, rfl⟩, rfl⟩, hb⟩ := h
      rw [ihh hh, eq_of_agreesEach (fun p hp _ => ihf p hp) hf, ihm hm,
        eq_of_agreesEach (fun p hp _ => ihb p hp) hb]
    | _ => cases h
  | union branches ih =>
    cases p' with
    | union branches' => rw [eq_of_agreesEach (fun p hp _ => ih p hp) h]
    | _ => cases h
  | intersection terms ih =>
    cases p' with
    | intersection terms' => rw [eq_of_agreesEach (fun p hp _ => ih p hp) h]
    | _ => cases h
  | negation inner ih =>
    cases p' with
    | negation inner' => rw [ih h]
    | _ => cases h
  | parent inner ih =>
    cases p' with
    | parent inner' => rw [ih h]
    | _ => cases h
  | descendant inner ih =>
    cases p' with
    | descendant inner' => rw [ih h]
    | _ => cases h

end Condition

/-! ## bindings -/

namespace Condition

section
variable {s : Setting} {t : SyntaxTree}

theorem slot_mem_slotsEach {ps : List Condition} {cs : List (NodeChild t)}
    {ds : List (Derivation t)}
    (h : ∀ p ∈ ps, ∀ {c : NodeChild t} {d : Derivation t}, Derives s p c d →
      ∀ b ∈ d.bindings, b.slot ∈ p.slots)
    (hd : DerivesEach s ps cs ds) : ∀ b ∈ Derivation.bindingsEach ds, b.slot ∈ slotsEach ps := by
  induction ps generalizing cs ds with
  | nil =>
    obtain ⟨-, rfl⟩ := hd.nil_inv
    exact fun b hb => absurd hb List.not_mem_nil
  | cons p ps ih =>
    obtain ⟨c, rest, e, es, rfl, rfl, hp, hs⟩ := hd.cons_inv
    intro b hb
    rw [slotsEach, List.mem_append]
    rcases List.mem_append.1 hb with hb | hb
    · exact Or.inl (h p List.mem_cons_self hp b hb)
    · exact Or.inr (ih (fun q hq => h q (List.mem_cons_of_mem _ hq)) hs b hb)

/-- what is bound has the slot of a capture that is written in the condition -/
theorem slot_mem_slots {p : Condition} {c : NodeChild t} {d : Derivation t}
    (h : Derives s p c d) : ∀ b ∈ d.bindings, b.slot ∈ p.slots := by
  induction p using Condition.ind generalizing c d with
  | plain p hp =>
    obtain ⟨-, rfl⟩ := h.plain_inv hp
    exact fun b hb => absurd hb List.not_mem_nil
  | capture slot inner ih =>
    obtain ⟨e, he, rfl⟩ := h.capture_inv
    intro b hb
    rcases List.mem_append.1 hb with hb | hb
    · exact List.mem_cons_of_mem _ (ih he b hb)
    · obtain rfl := List.mem_singleton.1 hb
      exact List.mem_cons_self
  | exactly head elements ihh ihe =>
    obtain ⟨n, e, ds, -, hh, hds, rfl⟩ := h.exactly_inv
    intro b hb
    rw [slots, List.mem_append]
    rcases List.mem_append.1 hb with hb | hb
    · exact Or.inl (ihh hh b hb)
    · exact Or.inr (slot_mem_slotsEach (fun p hp => ihe p hp) hds b hb)
  | around head front middle arity slot back ihh ihf ihm ihb =>
    obtain ⟨n, xs, ys, zs, e, fs, bs, ms, -, -, hh, hf, hb, -, hm, rfl⟩ := h.around_inv
    have hmiddle : ∀ b ∈ Derivation.bindingsEach ms, b.slot ∈ middle.slots := by
      intro b hb
      have hall := slot_mem_slotsEach (fun p hp => by
        obtain ⟨_, _, rfl⟩ := List.mem_map.1 hp
        exact ihm) hm b hb
      rw [slotsEach_eq, List.mem_flatMap] at hall
      obtain ⟨p, hp, hb⟩ := hall
      obtain ⟨_, _, rfl⟩ := List.mem_map.1 hp
      exact hb
    intro b hmem
    rw [Derivation.bindings_around] at hmem
    simp only [slots, List.mem_append, Derivation.bindings] at hmem ⊢
    rcases hmem with hmem | (hmem | hmem) | hmem | hmem
    · exact Or.inl (Or.inl (Or.inl (Or.inl (ihh hh b hmem))))
    · exact Or.inl (Or.inl (Or.inl (Or.inr (slot_mem_slotsEach (fun p hp => ihf p hp) hf b hmem))))
    · exact Or.inr (slot_mem_slotsEach (fun p hp => ihb p hp) hb b hmem)
    · exact Or.inl (Or.inr (hmiddle b hmem))
    · obtain ⟨k, hk, rfl⟩ := List.mem_map.1 hmem
      exact Or.inl (Or.inl (Or.inr hk))
  | union branches ih =>
    obtain ⟨p, hp, hd⟩ := h.union_inv
    intro b hb
    rw [slots, slotsEach_eq, List.mem_flatMap]
    exact ⟨p, hp.mem, ih p hp.mem hd b hb⟩
  | intersection terms ih =>
    obtain ⟨ds, hds, rfl⟩ := h.intersection_inv
    exact slot_mem_slotsEach (fun p hp => ih p hp) hds
  | negation inner _ =>
    obtain ⟨-, rfl⟩ := h.negation_inv
    exact fun b hb => absurd hb List.not_mem_nil
  | parent inner ih =>
    obtain ⟨n, p, -, -, hd⟩ := h.parent_inv
    exact ih hd
  | descendant inner ih =>
    cases c with
    | node n =>
      obtain ⟨m, -, hd⟩ := h.descendant_inv
      exact ih hd
    | value v => exact ih h.itself_inv

theorem bindings_eq_nil {p : Condition} {c : NodeChild t} {d : Derivation t}
    (h : Derives s p c d) (hp : p.slots = []) : d.bindings = [] := by
  refine List.eq_nil_iff_forall_not_mem.2 fun b hb => ?_
  have hslot := slot_mem_slots h b hb
  rw [hp] at hslot
  exact absurd hslot List.not_mem_nil

theorem bindingsEach_eq_nil {ps : List Condition} {cs : List (NodeChild t)}
    {ds : List (Derivation t)} (h : DerivesEach s ps cs ds) (hp : slotsEach ps = []) :
    Derivation.bindingsEach ds = [] := by
  refine List.eq_nil_iff_forall_not_mem.2 fun b hb => ?_
  have hslot := slot_mem_slotsEach (fun p _ _ _ hd => slot_mem_slots hd) h b hb
  rw [hp] at hslot
  exact absurd hslot List.not_mem_nil

/-! ## nodes of a kind -/

theorem Derives.exactlyKind_inv {kind : Kind} {elements : List Condition} {c : NodeChild t}
    {d : Derivation t} (h : Derives s (.exactly (.kind kind) elements) c d) :
    ∃ n ds, c = .node n ∧ n.kind = kind ∧ DerivesEach s elements n.children ds ∧
      d.bindings = Derivation.bindingsEach ds := by
  obtain ⟨n, e, ds, rfl, hhead, hds, rfl⟩ := h.exactly_inv
  obtain ⟨⟨m, hm, hkind⟩, rfl⟩ := Derives.plain_inv (by trivial) hhead
  obtain rfl := NodeChild.node.inj hm
  exact ⟨n, ds, rfl, hkind, hds, rfl⟩

/-- a node of a kind with two children -/
theorem Derives.pair_inv {kind : Kind} {p q : Condition} {c : NodeChild t} {d : Derivation t}
    (h : Derives s (.exactly (.kind kind) [p, q]) c d) :
    ∃ n a b e f, c = .node n ∧ n.kind = kind ∧ n.children = [a, b] ∧ Derives s p a e ∧
      Derives s q b f ∧ d.bindings = e.bindings ++ f.bindings := by
  obtain ⟨n, ds, rfl, hkind, hds, hbindings⟩ := h.exactlyKind_inv
  obtain ⟨a, rest, e, es, hchildren, rfl, ha, hrest⟩ := hds.cons_inv
  obtain ⟨b, rest, f, es, rfl, rfl, hb, hrest⟩ := hrest.cons_inv
  obtain ⟨rfl, rfl⟩ := hrest.nil_inv
  refine ⟨n, a, b, e, f, rfl, hkind, hchildren, ha, hb, ?_⟩
  rw [hbindings]
  simp only [Derivation.bindingsEach, List.append_nil]

/-- a node of a kind with three children -/
theorem Derives.triple_inv {kind : Kind} {p q r : Condition} {c : NodeChild t} {d : Derivation t}
    (h : Derives s (.exactly (.kind kind) [p, q, r]) c d) :
    ∃ n a b x e f g, c = .node n ∧ n.kind = kind ∧ n.children = [a, b, x] ∧ Derives s p a e ∧
      Derives s q b f ∧ Derives s r x g ∧
      d.bindings = e.bindings ++ f.bindings ++ g.bindings := by
  obtain ⟨n, ds, rfl, hkind, hds, hbindings⟩ := h.exactlyKind_inv
  obtain ⟨a, rest, e, es, hchildren, rfl, ha, hrest⟩ := hds.cons_inv
  obtain ⟨b, rest, f, es, rfl, rfl, hb, hrest⟩ := hrest.cons_inv
  obtain ⟨x, rest, g, es, rfl, rfl, hx, hrest⟩ := hrest.cons_inv
  obtain ⟨rfl, rfl⟩ := hrest.nil_inv
  refine ⟨n, a, b, x, e, f, g, rfl, hkind, hchildren, ha, hb, hx, ?_⟩
  rw [hbindings]
  simp only [Derivation.bindingsEach, List.append_nil, List.append_assoc]

/-- the elements in front stand for the first children, those behind for the last ones -/
theorem Derives.aroundKind_inv {kind : Kind} {front back : List Condition} {arity : Arity}
    {c : NodeChild t} {d : Derivation t}
    (h : Derives s (.around (.kind kind) front .wildcard arity none back) c d) :
    ∃ n xs ys zs fs bs, c = .node n ∧ n.kind = kind ∧ n.children = xs ++ ys ++ zs ∧
      DerivesEach s front xs fs ∧ DerivesEach s back zs bs ∧
      d.bindings = Derivation.bindingsEach fs ++ Derivation.bindingsEach bs := by
  obtain ⟨n, xs, ys, zs, e, fs, bs, ms, rfl, hcut, hhead, hf, hb, -, hm, rfl⟩ := h.around_inv
  obtain ⟨⟨m, hm', hkind⟩, rfl⟩ := Derives.plain_inv (by trivial) hhead
  obtain rfl := NodeChild.node.inj hm'
  refine ⟨n, xs, ys, zs, fs, bs, rfl, hkind, hcut, hf, hb, ?_⟩
  have hmiddle : Derivation.bindingsEach ms = [] := by
    refine bindingsEach_eq_nil hm ?_
    rw [slotsEach_eq, List.flatMap_map]
    exact List.flatMap_eq_nil_iff.2 fun _ _ => rfl
  rw [Derivation.bindings_around]
  simp only [Derivation.bindings, hmiddle, Option.toList_none, List.map_nil, List.append_nil,
    List.nil_append]

theorem Derives.frontKind_inv {kind : Kind} {front : List Condition} {arity : Arity}
    {n : Node t} {d : Derivation t}
    (h : Derives s (.around (.kind kind) front .wildcard arity none []) (.node n) d) :
    ∃ xs ys ds, n.children = xs ++ ys ∧ DerivesEach s front xs ds ∧
      d.bindings = Derivation.bindingsEach ds := by
  obtain ⟨m, xs, ys, zs, fs, bs, hn, -, hchildren, hfs, hbs, hbindings⟩ := h.aroundKind_inv
  obtain rfl := NodeChild.node.inj hn
  obtain ⟨rfl, rfl⟩ := hbs.nil_inv
  rw [List.append_nil] at hchildren
  rw [Derivation.bindingsEach, List.append_nil] at hbindings
  exact ⟨xs, ys, fs, hchildren, hfs, hbindings⟩

end

end Condition

/-! ## written out -/

/-- a pattern with its text, and the condition that comes of compiling it -/
structure Compiled (p : Pattern) where
  source : String
  environment : Environment
  condition : Condition
  compile_eq : compile source environment = .ok p
  agrees : p.condition.agrees condition = true

namespace Compiled

def ofText {cs : List Char} {env : Environment} {h : (compile (String.ofList cs) env).isOk = true}
    (c : Condition) (hc : ((read cs env).toOption.map fun r => r.1.agrees c) = some true) :
    Compiled (Pattern.ofText (String.ofList cs) env h) where
  source := String.ofList cs
  environment := env
  condition := c
  compile_eq := compile_ofText _ env h
  agrees := by
    obtain ⟨p, hp, hagrees⟩ := exists_compile (fun p => p.condition.agrees c) hc
    obtain rfl := Except.ok.inj (hp.symm.trans (compile_ofText _ env h))
    exact hagrees

/-- a match goes by a derivation of the condition, and the captures are what it binds last -/
theorem exists_derives {p : Pattern} (w : Compiled p) {t : SyntaxTree} {n : Node t}
    {caps : Captures t} (hm : p.match? n = some caps) :
    ∃ d, w.condition.Derives ⟨w.environment, []⟩ (.node n) d ∧
      ∀ slot, caps.get? slot = Captures.lastOf d.bindings slot := by
  obtain ⟨d, hd, -, hcaps⟩ := exists_derivation_of_matchChild w.compile_eq hm
  rw [Condition.eq_of_agrees w.agrees] at hd
  exact ⟨d, hd, fun slot => hcaps.get?_eq slot⟩

end Compiled

/-- the names of the captures, and their slots -/
theorem names_ofText {cs : List Char} {env : Environment}
    {h : (compile (String.ofList cs) env).isOk = true} {names : List (String × Nat)}
    (hnames : ((read cs env).toOption.map fun r => r.2.names == names) = some true) :
    (Pattern.ofText (String.ofList cs) env h).names = names := by
  obtain ⟨p, hp, hnames⟩ := exists_compile (fun p => p.names == names) hnames
  obtain rfl := Except.ok.inj (hp.symm.trans (compile_ofText _ env h))
  exact beq_iff_eq.1 hnames

end RubyLint.Pattern
