import RubyLint.Proofs.Layout.Relocated.Construct
import RubyLint.Proofs.Layout.Scoping

/-!
# Ternaries

A ternary is laid out by what is written for an `if`, whose branches are nodes that hold statements.  The
branches of a ternary are expressions by themselves, and the parts of an expression take the place of the
statements.

* `HoldsSame`           two nodes with the same condition, whose branches hold the same code;
* `within_ternary`      a ternary reads as an `if` whose branches hold the parts of its expressions;
* `ternary_loses`       an expression without parts, such as a word or a number, is lost.
-/

namespace RubyLint.Ruby

open Layout (within wordTerm)

/-- The nodes that a branch holds. -/
def heldBy (branch : Option Concrete) : List Concrete := branch.elim [] Concrete.named

/-- Neither branch of the node is another condition. -/
def HasPlainBranches (c : Concrete) : Prop :=
  ∀ role ∈ [Role.consequence, .alternative], ∀ d ∈ c.part? role, d.construct ≠ .elsifBranch

theorem hasPlainBranches_iff {c : Concrete} : (∀ role ∈ [Role.consequence, .alternative],
    (c.part? role).all (fun d => d.construct != .elsifBranch) = true) ↔ HasPlainBranches c := by
  simp only [HasPlainBranches, Option.all_eq_true, Option.mem_def, bne_iff_ne]

instance (c : Concrete) : Decidable (HasPlainBranches c) := decidable_of_iff _ hasPlainBranches_iff

/-- The two nodes have the same code as their condition, and hold the same code in each branch. -/
structure HoldsSame (source source' : List Char) (c c' : Concrete) : Prop where
  condition : Option.Rel (SameCode source source') (c.part? .condition) (c'.part? .condition)
  branches : ∀ role ∈ [Role.consequence, .alternative],
    List.Forall₂ (SameCode source source') (heldBy (c.part? role)) (heldBy (c'.part? role))

theorem branch_eq {l : Layout} {o : Option Concrete} (h : ∀ d ∈ o, d.construct ≠ .elsifBranch) :
    l.branch o = l.statements (heldBy o) := by
  cases o with
  | none => rfl
  | some d => exact if_neg (h d rfl)

theorem part_alike_of_sameCode {source source' : List Char} {c c' : Concrete} {role : Role} (depth : Nat)
    (h : Option.Rel (SameCode source source') (c.part? role) (c'.part? role)) :
    Alike (Option.map Term.outline) (Layout.part ⟨source, within source depth⟩ c role)
      (Layout.part ⟨source', within source' depth⟩ c' role) := by
  refine Layout.part_alike ?_
  generalize c.part? role = o at h
  generalize c'.part? role = o' at h
  cases h with
  | none => exact .none
  | some h => exact .some (Layout.within_sameCode depth h)

/-- Of a ternary comes what comes of an `if` with the same condition, whose branches hold the parts of the
expressions in its branches. -/
theorem within_ternary {source source' : List Char} {ternary conditional : Concrete} (depth : Nat)
    (hternary : ternary.construct = .conditional) (hif : conditional.construct = .ifBranch)
    (hplain : HasPlainBranches ternary) (hplain' : HasPlainBranches conditional)
    (h : HoldsSame source source' ternary conditional) :
    Alike Term.outline (within source depth ternary) (within source' depth conditional) := by
  cases depth with
  | zero => exact .throw rfl
  | succ depth =>
    have hbranch : ∀ role ∈ [Role.consequence, .alternative], Alike (Option.map Term.outline)
        (Layout.branch ⟨source, within source depth⟩ (ternary.part? role))
        (Layout.branch ⟨source', within source' depth⟩ (conditional.part? role)) := by
      intro role hrole
      rw [branch_eq (hplain role hrole), branch_eq (hplain' role hrole)]
      exact Layout.statements_alike ((h.branches role hrole).imp fun _ _ => Layout.within_sameCode depth)
    show Alike _ (Layout.node _ ternary) (Layout.node _ conditional)
    unfold Layout.node
    rw [hternary, hif]
    exact Layout.conditional_alike (part_alike_of_sameCode depth h.condition)
      (hbranch .consequence (by decide)) (hbranch .alternative (by decide)) false

/-- A branch whose expression has no parts leaves nothing. -/
theorem ternary_loses {source : List Char} {ternary : Concrete} {depth : Nat} {s s' : List Scope} {t : Term}
    (hternary : ternary.construct = .conditional) (hplain : HasPlainBranches ternary)
    (h : (within source depth ternary).run s = .ok (t, s')) :
    ∃ condition yes no, t = plainTerm .conditional ternary.span [condition, yes, no] ∧
      (heldBy (ternary.part? .consequence) = [] → yes = nilTerm) ∧
      (heldBy (ternary.part? .alternative) = [] → no = nilTerm) := by
  cases depth with
  | zero => cases h
  | succ depth =>
    let l : Layout := ⟨source, within source depth⟩
    replace h : (l.node ternary).run s = .ok (t, s') := h
    unfold Layout.node at h
    rw [hternary] at h
    obtain ⟨condition, s₁, -, h⟩ := Layout.run_bind_eq_ok.1 h
    obtain ⟨yes, s₂, hyes, h⟩ := Layout.run_bind_eq_ok.1 h
    obtain ⟨no, s₃, hno, h⟩ := Layout.run_bind_eq_ok.1 h
    rw [branch_eq (hplain _ (by decide))] at hyes hno
    cases h
    refine ⟨_, _, _, rfl, fun hheld => ?_, fun hheld => ?_⟩
    · rw [hheld] at hyes
      cases hyes
      rfl
    · rw [hheld] at hno
      cases hno
      rfl

/-! ## two ternaries -/

def sumText : List Char := "a ? b + d : c".toList

def sumTernary : Concrete := .node .plain .conditional ⟨0, 13⟩
  [wordAt .condition 0,
   .node .consequence .binary ⟨4, 9⟩
    [wordAt .left 4, .node .operator .token ⟨6, 7⟩ [], wordAt .right 8],
   wordAt .alternative 12]

def partsText : List Char := "if a then b; d end".toList

def partsIf : Concrete := .node .plain .ifBranch ⟨0, 18⟩
  [wordAt .condition 3,
   .node .consequence (.other "then") ⟨5, 14⟩ [wordAt .plain 10, wordAt .plain 13]]

theorem wordAt_isCopy {x : Char} {source : List Char} (front back : List Char) {role : Role} {start : Nat}
    (hsource : source = front ++ ([x] ++ back)) (hstart : Text.byteLength front = start) :
    (wordAt .plain 0).IsCopy [x] source (wordAt role start) := by
  refine ⟨front, back, role, hsource, ?_⟩
  rw [hstart, wordAt, wordAt, Concrete.shift_node]
  rfl

/-- the ternary reads as if the parts of the sum were statements -/
theorem sumTernary_alike :
    Alike Term.outline (within sumText Layout.maxNesting sumTernary)
        (within partsText Layout.maxNesting partsIf) ∧
      ∃ t, rootTerm sumText [sumTernary] = .ok t := by
  have hword : (wordAt .plain 0).Inside 1 :=
    .intro ⟨Nat.zero_le _, Nat.le_refl _⟩ fun _ hd => absurd hd List.not_mem_nil
  have ha : SameCode sumText partsText (wordAt .condition 0) (wordAt .condition 3) :=
    ⟨['a'], wordAt .plain 0, hword, wordAt_isCopy [] " ? b + d : c".toList rfl rfl,
      wordAt_isCopy "if ".toList " then b; d end".toList rfl rfl⟩
  have hb : SameCode sumText partsText (wordAt .left 4) (wordAt .plain 10) :=
    ⟨['b'], wordAt .plain 0, hword, wordAt_isCopy "a ? ".toList " + d : c".toList rfl rfl,
      wordAt_isCopy "if a then ".toList "; d end".toList rfl rfl⟩
  have hd : SameCode sumText partsText (wordAt .right 8) (wordAt .plain 13) :=
    ⟨['d'], wordAt .plain 0, hword, wordAt_isCopy "a ? b + ".toList " : c".toList rfl rfl,
      wordAt_isCopy "if a then b; ".toList " end".toList rfl rfl⟩
  have hplain : HasPlainBranches sumTernary := by decide
  have hplain' : HasPlainBranches partsIf := by decide
  refine ⟨within_ternary Layout.maxNesting rfl rfl hplain hplain' ⟨.some ha, fun role hrole => ?_⟩, ?_⟩
  · obtain rfl | rfl := List.mem_pair.1 hrole
    · exact .cons hb (.cons hd .nil)
    · exact .nil
  · exact ⟨_, by with_unfolding_all rfl⟩

def choiceText : List Char := "a ? b : c".toList

def choiceTernary : Concrete := .node .plain .conditional ⟨0, 9⟩
  [wordAt .condition 0, wordAt .consequence 4, wordAt .alternative 8]

def choiceIfText : List Char := "if a then b else c end".toList

def choiceIf : Concrete := .node .plain .ifBranch ⟨0, 22⟩
  [wordAt .condition 3,
   .node .consequence (.other "then") ⟨5, 11⟩ [wordAt .plain 10],
   .node .alternative .elseBranch ⟨12, 18⟩ [wordAt .plain 17]]

def choiceTerm : Term := plainTerm .conditional ⟨0, 9⟩
  [wordTerm choiceText (wordAt .condition 0) false, nilTerm, nilTerm]

def choiceIfTerm : Term := plainTerm .conditional ⟨0, 22⟩
  [wordTerm choiceIfText (wordAt .condition 3) false, wordTerm choiceIfText (wordAt .plain 10) false,
   wordTerm choiceIfText (wordAt .plain 17) false]

/-- a ternary loses the words in its branches, which an `if` keeps -/
theorem rootTerm_choice : rootTerm choiceText [choiceTernary] = .ok choiceTerm ∧
    rootTerm choiceIfText [choiceIf] = .ok choiceIfTerm ∧ choiceTerm.outline ≠ choiceIfTerm.outline := by
  refine ⟨by with_unfolding_all rfl, by with_unfolding_all rfl, ?_⟩
  simp [choiceTerm, choiceIfTerm, plainTerm, wordTerm, nilTerm]

end RubyLint.Ruby
