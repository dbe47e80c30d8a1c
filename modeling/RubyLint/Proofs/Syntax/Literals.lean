import RubyLint.Proofs.Syntax.Placement
import RubyLint.Proofs.Syntax.Preorder

/-!
# What a literal spells out

A literal is taken for recursively basic if its kind, and the kinds of what is inside it, say so.  A kind
does not say everything: a pair has the same kind whether it has a value or omits it.

* `Kind.literalParts`      what may stand directly inside a literal of a kind;
* `Node.Spells`            what stands inside, but for the options of regular expressions;
* `isRecursiveBasicLiteral_iff`   the answer is about the kinds of all that a node spells;
* `Node.WorksOut`          the constructs whose value is worked out where they stand;
* `isRecursiveBasicLiteral_worksOut`   none of them stands inside such a literal, but for a pair that
                           omits its value, and for what is below options.
-/

namespace RubyLint

namespace Kind

/-- The literals without anything inside. -/
def plainKinds : List Kind := [.str, .sym, .int, .float, .nilLiteral, .trueLiteral, .falseLiteral]

/-- The literals, and parentheses. -/
def literalKinds : List Kind :=
  plainKinds ++ [.regexp, .inclusiveRange, .exclusiveRange, .array, .hash, .pair, .sequence,
    .interpolatedStr, .interpolatedSym]

/-- the kinds of what may stand directly inside a literal -/
def literalParts : Kind → List Kind
  | .regexp => [.str, .regexpOptions]
  | .interpolatedStr | .interpolatedSym => [.str]
  | .inclusiveRange | .exclusiveRange | .array | .hash | .pair | .sequence => literalKinds
  | _ => []

/-- The kinds of calls, variables, constants, assignments, splats and blocks. -/
def computedKinds : List Kind :=
  [.send, .safeSend, .superCall, .bareSuper, .yieldCall, .commandStr,
    .localVar, .instanceVar, .globalVar, .classVar, .constant,
    .localAssign, .instanceAssign, .globalAssign, .classAssign, .constAssign, .opAssign, .orAssign,
    .andAssign, .matchAssign, .other "masgn",
    .splat, .doubleSplat, .block, .blockPass]

/-- The kinds of what text is put into. -/
def interpolatedKinds : List Kind := [.interpolatedStr, .interpolatedSym, .commandStr, .regexp]

theorem mem_literalKinds_of_mem_literalParts {kind part : Kind} (h : part ∈ kind.literalParts)
    (hpart : part ≠ .regexpOptions) : part ∈ literalKinds := by
  have hstr : Kind.str ∈ literalKinds := by decide
  unfold literalParts at h
  split at h
  · rcases List.mem_cons.1 h with rfl | h
    · exact hstr
    · exact absurd (List.mem_singleton.1 h) hpart
  all_goals first
    | exact List.mem_singleton.1 h ▸ hstr
    | exact h
    | exact absurd h List.not_mem_nil

theorem not_mem_computedKinds {kind : Kind} (h : kind ∈ literalKinds) : kind ∉ computedKinds := by
  revert kind
  decide

end Kind

/-- the literals without anything inside have nothing inside -/
def SyntaxTree.HasPlainLeaves (t : SyntaxTree) : Prop :=
  ∀ n : Node t, n.kind ∈ Kind.plainKinds → n.childNodes = []

instance (t : SyntaxTree) : Decidable t.HasPlainLeaves :=
  inferInstanceAs (Decidable (∀ _ : Node t, _ → _))

namespace Node

variable {t : SyntaxTree} {n m k : Node t}

/-- `n.Spells m`: the node `m` is `n` or stands inside it, and not in the options of a regular expression. -/
inductive Spells : Node t → Node t → Prop
  | self (n : Node t) : Spells n n
  | through {n m k : Node t} (hm : m ∈ n.childNodes) (hkind : m.kind ≠ .regexpOptions)
      (hk : Spells m k) : Spells n k

theorem forall_spells_iff {P : Node t → Prop} : (∀ k, n.Spells k → P k) ↔
    P n ∧ ∀ m ∈ n.childNodes, m.kind ≠ .regexpOptions → ∀ k, m.Spells k → P k := by
  constructor
  · exact fun h => ⟨h n (.self n), fun m hm hkind k hk => h k (.through hm hkind hk)⟩
  · rintro ⟨hn, h⟩ k hk
    cases hk with
    | self => exact hn
    | through hm hkind hk => exact h _ hm hkind k hk

/-- what is inside a node is spelled, or stands in the options of a regular expression -/
theorem Covers.spells_or (h : n.Covers m) :
    n.Spells m ∨ ∃ options, n.Covers options ∧ options.kind = .regexpOptions ∧ options.Covers m := by
  induction h with
  | self n => exact .inl (.self n)
  | @through n m k hm hk ih =>
    by_cases hkind : m.kind = .regexpOptions
    · exact .inr ⟨m, .through hm (.self m), hkind, hk⟩
    · rcases ih with hspells | ⟨options, hoptions, h⟩
      · exact .inl (.through hm hkind hspells)
      · exact .inr ⟨options, .through hm hoptions, h⟩

/-! ## the answer, by kinds -/

theorem kind_mem_literalKinds (h : n.isRecursiveBasicLiteral = true) : n.kind ∈ Kind.literalKinds := by
  rw [isRecursiveBasicLiteral] at h
  split at h
  case h_17 => cases h
  all_goals
    next hkind =>
      rw [hkind]
      decide

theorem isRecursiveBasicLiteral_of_str (h : n.kind = .str) : n.isRecursiveBasicLiteral = true := by
  rw [isRecursiveBasicLiteral, h]

theorem forall_parts_container_iff {kind : Kind} (hkind : kind ∈ Kind.literalKinds)
    (hparts : kind.literalParts = Kind.literalKinds) :
    (n.childNodes.attach.all fun part => part.1.isRecursiveBasicLiteral) = true ↔
      kind ∈ Kind.literalKinds ∧ ∀ c ∈ n.childNodes, c.kind ∈ kind.literalParts ∧
        (c.kind ≠ .regexpOptions → c.isRecursiveBasicLiteral = true) := by
  rw [List.all_subtype (g := isRecursiveBasicLiteral) fun _ _ => rfl, List.unattach_attach,
    List.all_eq_true, hparts]
  constructor
  · exact fun h => ⟨hkind, fun c hc => ⟨kind_mem_literalKinds (h c hc), fun _ => h c hc⟩⟩
  · rintro ⟨-, h⟩ c hc
    obtain ⟨hmem, hanswer⟩ := h c hc
    exact hanswer fun heq => absurd (heq ▸ hmem) (by decide)

theorem forall_parts_text_iff {kind : Kind} (hkind : kind ∈ Kind.literalKinds)
    (hparts : ∀ part ∈ kind.literalParts, part = .str ∨ part = .regexpOptions) :
    (∀ c ∈ n.childNodes, c.kind ∈ kind.literalParts) ↔
      kind ∈ Kind.literalKinds ∧ ∀ c ∈ n.childNodes, c.kind ∈ kind.literalParts ∧
        (c.kind ≠ .regexpOptions → c.isRecursiveBasicLiteral = true) := by
  constructor
  · refine fun h => ⟨hkind, fun c hc => ⟨h c hc, fun hne => ?_⟩⟩
    exact isRecursiveBasicLiteral_of_str ((hparts _ (h c hc)).resolve_right hne)
  · exact fun h c hc => (h.2 c hc).1

/-- The answer at a node goes by the kinds of its children, and by the answers at those. -/
theorem isRecursiveBasicLiteral_step (ht : t.HasPlainLeaves) : n.isRecursiveBasicLiteral = true ↔
    n.kind ∈ Kind.literalKinds ∧ ∀ c ∈ n.childNodes, c.kind ∈ n.kind.literalParts ∧
      (c.kind ≠ .regexpOptions → c.isRecursiveBasicLiteral = true) := by
  have hleaf := ht n
  rw [isRecursiveBasicLiteral]
  split
  case h_8 hkind =>
    rw [hkind, ← forall_parts_text_iff (by decide) (by decide), List.all_eq_true]
    simp [Kind.literalParts]
  case h_15 hkind =>
    rw [hkind, ← forall_parts_text_iff (by decide) (by decide), List.all_eq_true]
    simp [Kind.literalParts]
  case h_16 hkind =>
    rw [hkind, ← forall_parts_text_iff (by decide) (by decide), List.all_eq_true]
    simp [Kind.literalParts]
  case h_17 =>
    refine iff_of_false Bool.false_ne_true fun h => ?_
    simp_all [Kind.literalKinds, Kind.plainKinds]
  all_goals
    next hkind =>
      first
      | rw [hkind]
        exact forall_parts_container_iff (by decide) rfl
      | -- nothing inside
        have hnil := hleaf (by rw [hkind]; decide)
        rw [hkind, hnil]
        exact iff_of_true rfl ⟨by decide, fun _ hc => absurd hc List.not_mem_nil⟩

theorem Spells.isRecursiveBasicLiteral (ht : t.HasPlainLeaves) (h : n.Spells m)
    (hn : n.isRecursiveBasicLiteral = true) : m.isRecursiveBasicLiteral = true := by
  induction h with
  | self => exact hn
  | through hm hkind _ ih =>
    exact ih ((((isRecursiveBasicLiteral_step ht).1 hn).2 _ hm).2 hkind)

/-- The answer is yes exactly if each thing inside, but for options, has a kind that may stand where it
stands. -/
theorem isRecursiveBasicLiteral_iff (ht : t.HasPlainLeaves) : n.isRecursiveBasicLiteral = true ↔
    n.kind ∈ Kind.literalKinds ∧
      ∀ m, n.Spells m → ∀ c ∈ m.childNodes, c.kind ∈ m.kind.literalParts := by
  constructor
  · refine fun h => ⟨kind_mem_literalKinds h, fun m hm c hc => ?_⟩
    exact (((isRecursiveBasicLiteral_step ht).1 (hm.isRecursiveBasicLiteral ht h)).2 c hc).1
  · -- by the index, which gets smaller on the way down
    induction hi : n.index using Nat.strongRecOn generalizing n with
    | ind i ih =>
      rw [forall_spells_iff]
      rintro ⟨hkind, hparts, hinner⟩
      refine (isRecursiveBasicLiteral_step ht).2 ⟨hkind, fun c hc => ⟨hparts c hc, fun hne => ?_⟩⟩
      have hmem := Kind.mem_literalKinds_of_mem_literalParts (hparts c hc) hne
      exact ih c.index (hi ▸ childNodes_lt hc) rfl ⟨hmem, hinner c hc hne⟩

/-! ## what is worked out -/

/-- a pair that omits its value -/
structure OmitsValue (n : Node t) : Prop where
  isPair : n.kind = .pair
  noValue : n.childNode? 1 = none

/-- The value of the construct is worked out where it stands: a call, a variable, a constant, an
assignment, a splat, a block, text with something put into it, or a pair that omits its value. -/
inductive WorksOut (n : Node t) : Prop
  | computed (h : n.kind ∈ Kind.computedKinds)
  | interpolated {part : Node t} (h : n.kind ∈ Kind.interpolatedKinds) (hpart : part ∈ n.childNodes)
      (hkind : part.kind ≠ .str ∧ part.kind ≠ .regexpOptions)
  | omitted (h : n.OmitsValue)

theorem WorksOut.omitsValue (ht : t.HasPlainLeaves) (h : n.WorksOut)
    (hn : n.isRecursiveBasicLiteral = true) : n.OmitsValue := by
  obtain ⟨hkind, hparts⟩ := (isRecursiveBasicLiteral_step ht).1 hn
  cases h with
  | computed h => exact absurd h (Kind.not_mem_computedKinds hkind)
  | @interpolated part h hpart hne =>
    have hmem := (hparts part hpart).1
    have htext : ∀ kind ∈ Kind.interpolatedKinds, ∀ part ∈ kind.literalParts,
        part = .str ∨ part = .regexpOptions := by decide
    exact ((htext _ h _ hmem).elim hne.1 hne.2).elim
  | omitted h => exact h

/-- **A literal that is recursively basic spells itself out, up to omitted values.**  In a tree where plain
literals have nothing inside, the answer is yes exactly if the node is a literal, and if everything inside
has a kind that may stand directly in what is around it; the options of regular expressions are not looked
into.  So wherever something inside is worked out, it is a pair that omits its value, or it stands in such
options.  Whether a pair omits its value is no matter of kinds, and makes no difference. -/
theorem isRecursiveBasicLiteral_worksOut (ht : t.HasPlainLeaves) (n : Node t) :
    (n.isRecursiveBasicLiteral = true ↔ n.kind ∈ Kind.literalKinds ∧
      ∀ m, n.Spells m → ∀ c ∈ m.childNodes, c.kind ∈ m.kind.literalParts) ∧
    (n.isRecursiveBasicLiteral = true → ∀ m, n.Covers m → m.WorksOut → m.OmitsValue ∨
      ∃ options, n.Covers options ∧ options.kind = .regexpOptions ∧ options.Covers m) := by
  refine ⟨isRecursiveBasicLiteral_iff ht, fun hn m hm hworks => ?_⟩
  refine hm.spells_or.imp_left fun hspells => ?_
  exact hworks.omitsValue ht (hspells.isRecursiveBasicLiteral ht hn)

/-! ## with a value, and without -/

def nestedLiteral : SyntaxTree :=
  SyntaxTree.ofNode "[:a, \x7bb: 1\x7d]" .array ⟨0, 12⟩ ⟨none, none, some ⟨0, 1⟩, some ⟨11, 12⟩, none⟩ [
    .node .sym ⟨1, 3⟩ Loc.none [.value (.sym "a")],
    .node .hash ⟨5, 11⟩ ⟨none, none, some ⟨5, 6⟩, some ⟨10, 11⟩, none⟩ [
      .node .pair ⟨6, 10⟩ ⟨none, none, none, none, some ⟨7, 8⟩⟩ [
        .node .sym ⟨6, 7⟩ Loc.none [.value (.sym "b")],
        .node .int ⟨9, 10⟩ Loc.none [.value (.int 1)]]]]

/-- Nothing in it is worked out. -/
theorem nestedLiteral_spelled : nestedLiteral.HasPlainLeaves ∧
    nestedLiteral.rootNode.isRecursiveBasicLiteral = true ∧
    ∀ m, nestedLiteral.rootNode.Covers m → ¬ m.WorksOut := by
  have ht : nestedLiteral.HasPlainLeaves := by decide +kernel
  have hroot : nestedLiteral.rootNode.isRecursiveBasicLiteral = true := by decide +kernel
  refine ⟨ht, hroot, fun m hm hworks => ?_⟩
  rcases (isRecursiveBasicLiteral_worksOut ht _).2 hroot m hm hworks with homits | ⟨options, -, hkind, -⟩
  · have hvalue : ∀ k : Node nestedLiteral, k.kind = .pair → (k.childNode? 1).isSome = true := by
      decide +kernel
    have hsome := hvalue m homits.isPair
    rw [homits.noValue] at hsome
    cases hsome
  · have hnone : ∀ k : Node nestedLiteral, k.kind ≠ .regexpOptions := by decide +kernel
    exact hnone options hkind

/-- the hash `{x:}`, whose value is that of a variable or of a call -/
def omittedValue : SyntaxTree :=
  SyntaxTree.ofNode "\x7bx:\x7d" .hash ⟨0, 4⟩ ⟨none, none, some ⟨0, 1⟩, some ⟨3, 4⟩, none⟩ [
    .node .pair ⟨1, 3⟩ Loc.none [.node .sym ⟨1, 2⟩ Loc.none [.value (.sym "x")], .value .nil]]

/-- The answer is yes, and the value of the pair is worked out. -/
theorem omittedValue_spelled : omittedValue.WellFormed ∧ omittedValue.HasPlainLeaves ∧
    omittedValue.rootNode.isRecursiveBasicLiteral = true ∧
    ∃ m, omittedValue.rootNode.Covers m ∧ m.OmitsValue := by
  refine ⟨by decide +kernel, by decide +kernel, by decide +kernel, ⟨1, by decide +kernel⟩, ?_,
    by decide +kernel, by decide +kernel⟩
  exact mem_descendants.1 (by decide +kernel)

end Node

end RubyLint
