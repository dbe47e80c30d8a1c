import RubyLint.Proofs.Literal.Integers
import RubyLint.Ruby.Layout.Construct

/-!
# Integers behind a minus

A minus in front of an integer makes one number of both, if the integer has at most sixty-three bits.  The
negative of such a number has a place among those of sixty-four bits, so nothing wraps.  Any other integer
keeps its text, and the minus calls a method on it.

* `Layout.Negates`       a minus in front of an integer;
* `unary_of_some`, `unary_of_none`   what it comes to, by what is read from the text of the integer;
* `negates_integerToken`   what it comes to for every integer of a program.
-/

namespace RubyLint.Ruby

open Literal (IntegerToken readInteger Separated)

/-- The node is a minus in front of the integer that is written so. -/
structure Layout.Negates (l : Layout) (c d : Concrete) (cs : List Char) : Prop where
  isUnary : c.construct = .unary
  operator : l.partText c .operator = ['-']
  operand : c.part? .operand = some d
  isInteger : d.construct = .integer
  text : l.text d = cs

/-- the call that a minus stands for -/
def negation (c : Concrete) (operand : Term) : Term :=
  .node .send c.span (Layout.operatorLoc c) [operand, symTerm "-@".toList]

/-- the number that is read, with its sign turned -/
def negativeTerm (c : Concrete) (i : Int) : Term := plainTerm .int c.span [.value (.int (-i))]

section
variable {l : Layout} {c d : Concrete} {cs : List Char} {n : Nat}

theorem negativeNumber?_of_negates (h : l.Negates c d cs) :
    l.negativeNumber? c = (readInteger cs).map (negativeTerm c) := by
  unfold Layout.negativeNumber?
  rw [if_pos h.operator, h.operand]
  dsimp only
  rw [h.isInteger, h.text]
  rfl

theorem unary_of_some {i : Int} (h : l.Negates c d cs) (hi : readInteger cs = some i) :
    l.unary c = pure (negativeTerm c i) := by
  unfold Layout.unary
  rw [negativeNumber?_of_negates h, hi]
  rfl

theorem unary_of_none (h : l.Negates c d cs) (hi : readInteger cs = none) :
    l.unary c = negation c <$> l.below d := by
  have hpart : l.part c .operand = some <$> l.below d := by
    unfold Layout.part
    rw [h.operand]
  have hcall : ['-'] ≠ "defined?".toList := by decide
  unfold Layout.unary
  rw [negativeNumber?_of_negates h, hi, hpart, h.operator]
  simp only [Option.map_none, if_neg hcall, bind_map_left]
  rw [map_eq_pure_bind]
  rfl

/-- a number of sixty-three bits and its negative are numbers of sixty-four bits with a sign -/
theorem toInt_neg_ofNat (h : n ≤ 2 ^ 63 - 1) :
    (Int64.ofNat n).toInt = n ∧ (-Int64.ofNat n).toInt = -(n : Int) :=
  ⟨Int64.toInt_ofNat_of_lt (by omega), Int64.toInt_neg_ofNat_of_le (by omega)⟩

/-- A minus in front of an integer makes the negative number of it, if that has at most sixty-three bits, and
else the call of a method on whatever the integer comes to. -/
theorem unary_of_integerToken (h : IntegerToken cs n) (hc : l.Negates c d cs) : l.unary c =
    if n ≤ 2 ^ 63 - 1 then pure (negativeTerm c n) else negation c <$> l.below d := by
  have hread : readInteger cs = if n ≤ 2 ^ 63 - 1 then some (n : Int) else none := h.readInteger_eq
  split
  · next hfits => exact unary_of_some hc (hread.trans (if_pos hfits))
  · next hfits => exact unary_of_none hc (hread.trans (if_neg hfits))

theorem within_unary {source : List Char} (hc : c.construct = .unary) (depth : Nat) :
    Layout.within source (depth + 1) c = Layout.unary ⟨source, Layout.within source depth⟩ c := by
  show Layout.node _ c = _
  unfold Layout.node
  rw [hc]

theorem within_integer_of_none {source : List Char} (hd : d.construct = .integer)
    (htext : Layout.text ⟨source, Layout.below (Layout.ofSource source)⟩ d = cs)
    (hi : readInteger cs = none) (depth : Nat) :
    Layout.within source (depth + 1) d = pure (plainTerm .int d.span [strTerm cs]) := by
  have htext' : Layout.text ⟨source, Layout.within source depth⟩ d = cs := htext
  show Layout.node _ d = _
  unfold Layout.node
  rw [hd]
  show pure (Layout.integer _ d) = _
  unfold Layout.integer
  dsimp only
  rw [htext', hi]

/-- The reader of the grammar takes each integer as a whole. -/
theorem integerLength_integerToken (h : IntegerToken cs n) : integerLength cs = cs.length :=
  (Literal.integerLength_eq_length_iff h.ne_nil).2 (.inl ⟨n, h, fun _ hm => hm.unique h⟩)

/-- **A minus in front of an integer never wraps.**  An integer is read as the number that it denotes,
if that has at most sixty-three bits, and as nothing else.  Among the numbers of sixty-four bits the negative
of such a number is exact.  A layout makes it of the minus and the integer, and otherwise a call on whatever
it makes of the integer, which is the text where nodes may be nested so deep. -/
theorem negates_integerToken (h : IntegerToken cs n) :
    readInteger cs = (if n ≤ 2 ^ 63 - 1 then some (n : Int) else none) ∧
    (n ≤ 2 ^ 63 - 1 → (Int64.ofNat n).toInt = n ∧ (-Int64.ofNat n).toInt = -(n : Int)) ∧
    (∀ (l : Layout) (c d : Concrete), l.Negates c d cs → l.unary c =
      if n ≤ 2 ^ 63 - 1 then pure (negativeTerm c n) else negation c <$> l.below d) ∧
    ∀ (source : List Char) (c d : Concrete), (Layout.ofSource source).Negates c d cs →
      ∀ (depth : Nat) (s : List Scope), (Layout.within source (depth + 2) c).run s =
        .ok (if n ≤ 2 ^ 63 - 1 then negativeTerm c n
          else negation c (plainTerm .int d.span [strTerm cs]), s) := by
  have hread : readInteger cs = if n ≤ 2 ^ 63 - 1 then some (n : Int) else none := h.readInteger_eq
  refine ⟨hread, toInt_neg_ofNat, fun l c d hc => unary_of_integerToken h hc, ?_⟩
  intro source c d hc depth s
  have hc' : Layout.Negates ⟨source, Layout.within source (depth + 1)⟩ c d cs :=
    ⟨hc.isUnary, hc.operator, hc.operand, hc.isInteger, hc.text⟩
  rw [within_unary hc.isUnary, unary_of_integerToken h hc']
  split
  · rfl
  · next hfits =>
    dsimp only
    rw [within_integer_of_none hc.isInteger hc.text (hread.trans (if_neg hfits))]
    rfl

end

/-! ## two integers -/

def greatestToken : List Char :=
  '0' :: 'X' :: (['7', 'f', 'f', 'f'] ++ '_' :: (['F', 'F', 'F', 'F'] ++
    '_' :: (['f', 'f', 'f', 'f'] ++ '_' :: ['f', 'f', 'f', 'f'])))

def beyondToken : List Char := ['9', '2', '2', '3', '3', '7', '2', '0', '3', '6', '8', '5', '4', '7',
  '7', '5', '8', '0', '8']

theorem integerToken_greatest : IntegerToken greatestToken (2 ^ 63 - 1) := by
  have hsign : ('X', 16) ∈ Literal.baseSigns := by decide
  refine .based hsign ⟨_, (Separated.plain '7' _).join ((Separated.plain 'F' _).join
    ((Separated.plain 'f' _).join (Separated.plain 'f' _))), Literal.spells_iff.2 (by decide)⟩

theorem integerToken_beyond : IntegerToken beyondToken (2 ^ 63) :=
  .decimal ⟨_, Separated.plain '9' _, Literal.spells_iff.2 (by decide)⟩ (by decide)

def operandNode (length : Nat) : Concrete := .node .operand .integer ⟨1, 1 + length⟩ []

def minusNode (length : Nat) : Concrete := .node .plain .unary ⟨0, 1 + length⟩
  [.node .operator .token ⟨0, 1⟩ [], operandNode length]

/-- the one becomes a negative number, the other the operand of a call -/
theorem greatest_beyond_negated :
    (readInteger greatestToken = some 9223372036854775807 ∧
      (Layout.within ('-' :: greatestToken) Layout.maxNesting (minusNode 21)).run [Scope.fresh true] =
        .ok (plainTerm .int ⟨0, 22⟩ [.value (.int (-9223372036854775807))], [Scope.fresh true])) ∧
    (readInteger beyondToken = none ∧
      (Layout.within ('-' :: beyondToken) Layout.maxNesting (minusNode 19)).run [Scope.fresh true] =
        .ok (negation (minusNode 19) (plainTerm .int ⟨1, 20⟩ [strTerm beyondToken]),
          [Scope.fresh true])) := by
  have hgreatest : (Layout.ofSource ('-' :: greatestToken)).Negates (minusNode 21) (operandNode 21)
      greatestToken := ⟨rfl, by decide, rfl, rfl, by decide⟩
  have hbeyond : (Layout.ofSource ('-' :: beyondToken)).Negates (minusNode 19) (operandNode 19)
      beyondToken := ⟨rfl, by decide, rfl, rfl, by decide⟩
  obtain ⟨hread, -, -, hrun⟩ := negates_integerToken integerToken_greatest
  obtain ⟨hread', -, -, hrun'⟩ := negates_integerToken integerToken_beyond
  exact ⟨⟨hread, hrun _ _ _ hgreatest 254 _⟩, hread', hrun' _ _ _ hbeyond 254 _⟩

end RubyLint.Ruby
