import Mathlib.Algebra.Order.Field.Rat
import Mathlib.Data.Nat.Cast.Order.Ring
import Mathlib.Tactic.Ring
import RubyLint.Number.Digits
import RubyLint.Text.Split

/-!
# Numerals

The number that a literal of digits stands for in a program.  An integer with a zero in front of another
digit is octal, and a fraction has no such zero.  So a text of digits need not stand for the number that it
is as a decimal.

* `placeValue`           the number of some digits in a base, each by its place;
* `UnsignedNumeral`, `Numeral`   the numerals without letters, and the numbers that they stand for;
* `placeValue_octal_eq_iff`   octal digits denote what they denote as decimal ones only below eight;
* `unsignedNumeral_digits_iff`, `unsignedNumeral_fraction_iff`   what a text of digits stands for, with
                         and without a point;
* `readInteger_eq_some_iff`   the reader of integer literals reads numerals, as far as they fit.
-/

namespace RubyLint.Literal

/-! ## digits by their places -/

def AreDigits (base : Nat) (cs : List Char) : Prop :=
  ∀ c ∈ cs, '0'.toNat ≤ c.toNat ∧ c.toNat < '0'.toNat + base

instance (base : Nat) (cs : List Char) : Decidable (AreDigits base cs) := List.decidableBAll _ cs

def digitOf (c : Char) : Nat := c.toNat - '0'.toNat

/-- The number that digits denote in a base: each counts as many units as its place has. -/
def placeValue (base : Nat) : List Char → Nat
  | [] => 0
  | c :: cs => digitOf c * base ^ cs.length + placeValue base cs

section
variable {base k : Nat} {c : Char} {cs ds : List Char}

theorem placeValue_nil : placeValue base [] = 0 := rfl

theorem placeValue_cons :
    placeValue base (c :: cs) = digitOf c * base ^ cs.length + placeValue base cs := rfl

theorem placeValue_zero_cons : placeValue base ('0' :: cs) = placeValue base cs := by
  rw [placeValue_cons]
  show 0 * _ + _ = _
  rw [Nat.zero_mul, Nat.zero_add]

theorem areDigits_cons : AreDigits base (c :: cs) ↔
    ('0'.toNat ≤ c.toNat ∧ c.toNat < '0'.toNat + base) ∧ AreDigits base cs := List.forall_mem_cons

theorem areDigits_append : AreDigits base (cs ++ ds) ↔ AreDigits base cs ∧ AreDigits base ds :=
  List.forall_mem_append

theorem AreDigits.mono {base' : Nat} (h : AreDigits base cs) (hle : base ≤ base') : AreDigits base' cs :=
  fun c hc => ⟨(h c hc).1, Nat.lt_of_lt_of_le (h c hc).2 (Nat.add_le_add_left hle _)⟩

theorem AreDigits.not_mem_point (h : AreDigits base cs) : '.' ∉ cs := fun hpoint =>
  absurd (h _ hpoint).1 (by decide)

theorem AreDigits.digitOf_lt (h : AreDigits base cs) (hc : c ∈ cs) : digitOf c < base := by
  obtain ⟨hlow, hhigh⟩ := h c hc
  unfold digitOf
  omega

theorem digitOf_le_placeValue (hbase : 0 < base) (hc : c ∈ cs) : digitOf c ≤ placeValue base cs := by
  induction cs with
  | nil => exact absurd hc List.not_mem_nil
  | cons d cs ih =>
    rw [placeValue_cons]
    rcases List.mem_cons.1 hc with rfl | hc
    · have hle : digitOf c * 1 ≤ digitOf c * base ^ cs.length :=
        Nat.mul_le_mul_left _ (Nat.pow_pos hbase)
      omega
    · have hle := ih hc
      omega

theorem AreDigits.octal_of_lt (h : AreDigits 10 cs) (hlt : placeValue 10 cs < 8) : AreDigits 8 cs := by
  intro c hc
  have hle : digitOf c ≤ placeValue 10 cs := digitOf_le_placeValue (by decide) hc
  obtain ⟨hlow, -⟩ := h c hc
  refine ⟨hlow, ?_⟩
  unfold digitOf at hle
  omega

theorem placeValue_octal_le : placeValue 8 cs ≤ placeValue 10 cs := by
  induction cs with
  | nil => exact Nat.le_refl _
  | cons c cs ih =>
    rw [placeValue_cons, placeValue_cons]
    exact Nat.add_le_add (Nat.mul_le_mul_left _ (Nat.pow_le_pow_left (by decide) _)) ih

/-- Octal digits denote the number that they are as decimal digits only below eight. -/
theorem placeValue_octal_eq_iff (h : AreDigits 8 cs) :
    placeValue 8 cs = placeValue 10 cs ↔ placeValue 10 cs < 8 := by
  induction cs with
  | nil => exact iff_of_true rfl (by decide)
  | cons c cs ih =>
    have hc := h.digitOf_lt List.mem_cons_self
    have hrest := ih (areDigits_cons.1 h).2
    have hle : placeValue 8 cs ≤ placeValue 10 cs := placeValue_octal_le
    rw [placeValue_cons, placeValue_cons]
    cases cs with
    | nil =>
      rw [placeValue_nil, placeValue_nil]
      show digitOf c * 1 + 0 = digitOf c * 1 + 0 ↔ digitOf c * 1 + 0 < 8
      omega
    | cons d cs =>
      rcases Nat.eq_zero_or_pos (digitOf c) with hzero | hpos
      · rw [hzero, Nat.zero_mul, Nat.zero_mul, Nat.zero_add, Nat.zero_add]
        exact hrest
      · -- a place in front of another counts more among decimal digits, and ten at least
        have hplace : 8 ^ (d :: cs).length < 10 ^ (d :: cs).length :=
          Nat.pow_lt_pow_left (by decide) (by simp)
        have hten : 10 ^ 1 ≤ 10 ^ (d :: cs).length := Nat.pow_le_pow_right (by decide) (by simp)
        have hmore : digitOf c * 8 ^ (d :: cs).length < digitOf c * 10 ^ (d :: cs).length :=
          Nat.mul_lt_mul_of_pos_left hplace hpos
        have hunit : 1 * 10 ^ (d :: cs).length ≤ digitOf c * 10 ^ (d :: cs).length :=
          Nat.mul_le_mul_right _ hpos
        omega

/-! ## digits that are read -/

theorem le_nine_iff :
    '0' ≤ c ∧ c ≤ '9' ↔ '0'.toNat ≤ c.toNat ∧ c.toNat < '0'.toNat + 10 :=
  and_congr Iff.rfl Nat.lt_succ_iff.symm

theorem digitIn_eq_some_iff_digitValue :
    Number.digitIn base c = some k ↔ Number.digitValue c = some k ∧ k < base := by
  unfold Number.digitIn
  cases Number.digitValue c with
  | none => exact iff_of_false (fun h => nomatch h) fun h => nomatch h.1
  | some v =>
    rw [Option.ite_none_right_eq_some, and_comm]
    refine and_congr_right fun hv => ?_
    rw [Option.some.inj hv]

theorem digitIn_eq_some_iff (hbase : base ≤ 10) : Number.digitIn base c = some k ↔
    ('0'.toNat ≤ c.toNat ∧ c.toNat < '0'.toNat + base) ∧ k = digitOf c := by
  unfold Number.digitIn Number.digitValue
  rw [if_congr le_nine_iff rfl rfl]
  by_cases hc : '0'.toNat ≤ c.toNat ∧ c.toNat < '0'.toNat + 10
  · rw [if_pos hc]
    show (if digitOf c < base then some (digitOf c) else none) = some k ↔ _
    unfold digitOf
    rw [Option.ite_none_right_eq_some, Option.some.injEq]
    omega
  · -- a letter counts ten at least
    rw [if_neg hc]
    refine iff_of_false (fun h => ?_) fun h => hc ⟨h.1.1, by omega⟩
    split at h
    · next d hd =>
      rw [Option.ite_none_right_eq_some] at h
      have hten : 10 ≤ d := by
        split at hd
        · cases hd
          exact Nat.le_add_left _ _
        · split at hd
          · cases hd
            exact Nat.le_add_left _ _
          · cases hd
      omega
    · cases h

theorem isSome_digitIn_iff (hbase : base ≤ 10) : (Number.digitIn base c).isSome = true ↔
    '0'.toNat ≤ c.toNat ∧ c.toNat < '0'.toNat + base := by
  simp only [Option.isSome_iff_exists, digitIn_eq_some_iff hbase, exists_and_left, exists_eq, and_true]

theorem mapM_digitIn_eq_some_iff (hbase : base ≤ 10) {ks : List Nat} :
    cs.mapM (Number.digitIn base) = some ks ↔ AreDigits base cs ∧ ks = cs.map digitOf := by
  induction cs generalizing ks with
  | nil =>
    rw [List.mapM_nil]
    show some [] = some ks ↔ _
    rw [Option.some.injEq, eq_comm]
    exact ⟨fun h => ⟨fun _ hc => absurd hc List.not_mem_nil, h⟩, And.right⟩
  | cons c cs ih =>
    rw [List.mapM_cons, areDigits_cons]
    constructor
    · intro h
      obtain ⟨k, hk, h⟩ := Option.bind_eq_some_iff.1 h
      obtain ⟨rest, hrest, h⟩ := Option.bind_eq_some_iff.1 h
      obtain ⟨hc, rfl⟩ := (digitIn_eq_some_iff hbase).1 hk
      obtain ⟨hcs, rfl⟩ := ih.1 hrest
      exact ⟨⟨hc, hcs⟩, (Option.some.inj h).symm⟩
    · rintro ⟨⟨hc, hcs⟩, rfl⟩
      rw [(digitIn_eq_some_iff hbase).2 ⟨hc, rfl⟩, ih.2 ⟨hcs, rfl⟩]
      rfl

theorem ofDigits_map_digitOf : Number.ofDigits base (cs.map digitOf) = placeValue base cs := by
  have hfold : ∀ n, (cs.map digitOf).foldl (fun n d => n * base + d) n =
      n * base ^ cs.length + placeValue base cs := by
    induction cs with
    | nil => exact fun n => (Nat.mul_one n).symm
    | cons c cs ih =>
      intro n
      rw [List.map_cons, List.foldl_cons, ih, placeValue_cons, List.length_cons, Nat.pow_succ]
      ring
  rw [Number.ofDigits, hfold, Nat.zero_mul, Nat.zero_add]

theorem readDigits_eq_some_iff (hbase : base ≤ 10) : Number.readDigits base cs = some k ↔
    cs ≠ [] ∧ AreDigits base cs ∧ k = placeValue base cs := by
  unfold Number.readDigits
  cases cs with
  | nil => exact iff_of_false (fun h => nomatch h) fun h => h.1 rfl
  | cons c cs =>
    show ((c :: cs).mapM (Number.digitIn base)).map (Number.ofDigits base) = some k ↔ _
    rw [Option.map_eq_some_iff]
    constructor
    · rintro ⟨ks, hks, rfl⟩
      obtain ⟨hdigits, rfl⟩ := (mapM_digitIn_eq_some_iff hbase).1 hks
      exact ⟨List.cons_ne_nil c cs, hdigits, ofDigits_map_digitOf⟩
    · rintro ⟨-, hdigits, rfl⟩
      exact ⟨_, (mapM_digitIn_eq_some_iff hbase).2 ⟨hdigits, rfl⟩, ofDigits_map_digitOf⟩

end

/-! ## numerals -/

/-- a zero stands in front of another character -/
def IsZeroLed (cs : List Char) : Prop := ∃ c rest, cs = '0' :: c :: rest

/-- The numerals without a sign and without letters.  A zero in front makes octal digits of those behind
it; it is no part of a fraction. -/
inductive UnsignedNumeral : List Char → ℚ → Prop
  | decimal {cs : List Char} (hne : cs ≠ []) (hcs : AreDigits 10 cs) (hled : ¬ IsZeroLed cs) :
      UnsignedNumeral cs (placeValue 10 cs)
  | octal {cs : List Char} (hne : cs ≠ []) (hcs : AreDigits 8 cs) :
      UnsignedNumeral ('0' :: cs) (placeValue 8 cs)
  | fraction {whole part : List Char} (hne : whole ≠ []) (hwhole : AreDigits 10 whole)
      (hled : ¬ IsZeroLed whole) (hne' : part ≠ []) (hpart : AreDigits 10 part) :
      UnsignedNumeral (whole ++ '.' :: part) (placeValue 10 (whole ++ part) / 10 ^ part.length)

/-- The text stands for the number in a program. -/
inductive Numeral : List Char → ℚ → Prop
  | plain {cs : List Char} {q : ℚ} (h : UnsignedNumeral cs q) : Numeral cs q
  | negative {cs : List Char} {q : ℚ} (h : UnsignedNumeral cs q) : Numeral ('-' :: cs) (-q)

section
variable {c : Char} {cs whole part : List Char} {q : ℚ}

/-- of digits, only those with a zero in front are not read as decimal ones -/
theorem unsignedNumeral_digits_iff (hne : cs ≠ []) (hcs : AreDigits 10 cs) :
    UnsignedNumeral cs q ↔ ¬ IsZeroLed cs ∧ q = placeValue 10 cs ∨
      ∃ rest, rest ≠ [] ∧ AreDigits 8 rest ∧ cs = '0' :: rest ∧ q = placeValue 8 rest := by
  constructor
  · intro h
    cases h with
    | decimal _ _ hled => exact .inl ⟨hled, rfl⟩
    | octal hrest hoctal => exact .inr ⟨_, hrest, hoctal, rfl, rfl⟩
    | fraction => exact absurd (List.mem_append_right _ List.mem_cons_self) hcs.not_mem_point
  · rintro (⟨hled, rfl⟩ | ⟨rest, hrest, hoctal, rfl, rfl⟩)
    · exact .decimal hne hcs hled
    · exact .octal hrest hoctal

/-- digits with a point between them are a decimal fraction or nothing -/
theorem unsignedNumeral_fraction_iff (hne : whole ≠ []) (hwhole : AreDigits 10 whole) (hne' : part ≠ [])
    (hpart : AreDigits 10 part) : UnsignedNumeral (whole ++ '.' :: part) q ↔
      ¬ IsZeroLed whole ∧ q = placeValue 10 (whole ++ part) / 10 ^ part.length := by
  constructor
  · have hpoint : '.' ∈ whole ++ '.' :: part := List.mem_append_right _ List.mem_cons_self
    generalize htext : whole ++ '.' :: part = text at hpoint
    intro h
    cases h with
    | decimal _ hdigits => exact absurd hpoint hdigits.not_mem_point
    | octal _ hdigits =>
      exact absurd ((List.mem_cons.1 hpoint).resolve_left (by decide)) hdigits.not_mem_point
    | fraction _ hwhole' hled =>
      have hcut := Text.cutAt?_append hwhole.not_mem_point part
      rw [htext, Text.cutAt?_append hwhole'.not_mem_point] at hcut
      cases hcut
      exact ⟨hled, rfl⟩
  · rintro ⟨hled, rfl⟩
    exact .fraction hne hwhole hled hne' hpart

/-- Digits stand for the number that they are as decimal ones exactly if no zero stands in front of another
digit, or if they come to less than eight. -/
theorem unsignedNumeral_placeValue_iff (hne : cs ≠ []) (hcs : AreDigits 10 cs) :
    UnsignedNumeral cs (placeValue 10 cs) ↔ ¬ IsZeroLed cs ∨ placeValue 10 cs < 8 := by
  rw [unsignedNumeral_digits_iff hne hcs]
  constructor
  · rintro (⟨hled, -⟩ | ⟨rest, -, hoctal, rfl, heq⟩)
    · exact .inl hled
    · rw [placeValue_zero_cons] at heq ⊢
      exact .inr ((placeValue_octal_eq_iff hoctal).1 (Nat.cast_injective heq.symm))
  · intro h
    by_cases hled : IsZeroLed cs
    · obtain ⟨c, rest, rfl⟩ := hled
      have hlt := h.resolve_left fun hnot => hnot ⟨c, rest, rfl⟩
      rw [placeValue_zero_cons] at hlt ⊢
      have hoctal := (areDigits_cons.1 hcs).2.octal_of_lt hlt
      refine .inr ⟨c :: rest, List.cons_ne_nil c rest, hoctal, rfl, ?_⟩
      rw [(placeValue_octal_eq_iff hoctal).2 hlt]
    · exact .inl ⟨hled, rfl⟩

/-! ## signs -/

theorem UnsignedNumeral.exists_digit (h : UnsignedNumeral cs q) :
    ∃ c rest, cs = c :: rest ∧ '0'.toNat ≤ c.toNat := by
  cases h with
  | decimal hne hdigits =>
    obtain ⟨c, rest, rfl⟩ := List.exists_cons_of_ne_nil hne
    exact ⟨c, rest, rfl, (hdigits c List.mem_cons_self).1⟩
  | octal => exact ⟨_, _, rfl, Nat.le_refl _⟩
  | fraction hne hwhole =>
    obtain ⟨c, rest, rfl⟩ := List.exists_cons_of_ne_nil hne
    exact ⟨c, _, rfl, (hwhole c List.mem_cons_self).1⟩

theorem UnsignedNumeral.ne_minus_cons (h : UnsignedNumeral cs q) (rest : List Char) :
    cs ≠ '-' :: rest := by
  rintro rfl
  obtain ⟨c, _, heq, hdigit⟩ := h.exists_digit
  cases heq
  exact absurd hdigit (by decide)

theorem numeral_minus_iff : Numeral ('-' :: cs) (-q) ↔ UnsignedNumeral cs q := by
  constructor
  · generalize hq : -q = r
    intro h
    cases h with
    | plain h => exact absurd rfl (h.ne_minus_cons cs)
    | negative h => exact neg_injective hq ▸ h
  · exact .negative

theorem numeral_iff_unsignedNumeral (h : ∀ rest, cs ≠ '-' :: rest) :
    Numeral cs q ↔ UnsignedNumeral cs q := by
  constructor
  · intro hnumeral
    cases hnumeral with
    | plain hnumeral => exact hnumeral
    | negative => exact absurd rfl (h _)
  · exact .plain

/-! ## integer literals that are read -/

theorem splitSign_of_digit (h : ∀ c ∈ cs.head?, '0'.toNat ≤ c.toNat) :
    Number.splitSign cs = (false, cs) := by
  unfold Number.splitSign
  split
  · exact absurd (h _ rfl) (by decide)
  · exact absurd (h _ rfl) (by decide)
  · rfl

theorem readInt64_eq_some_iff {base : Nat} {i : Int} (hbase : base ≤ 10) (hcs : AreDigits 10 cs) :
    Number.readInt64 base cs = some i ↔
      (cs ≠ [] ∧ AreDigits base cs) ∧ placeValue base cs ≤ Number.maxInt64 ∧ i = placeValue base cs := by
  have hsign := splitSign_of_digit fun c hc => (hcs c (List.mem_of_mem_head? hc)).1
  have hread : Number.readInt64 base cs = (Number.readDigits base cs).bind fun n =>
      if n ≤ Number.maxInt64 then some (n : Int) else none := by
    unfold Number.readInt64
    rw [hsign]
    dsimp only
    cases Number.readDigits base cs <;> rfl
  rw [hread, Option.bind_eq_some_iff]
  constructor
  · rintro ⟨n, hn, h⟩
    obtain ⟨hne, hdigits, rfl⟩ := (readDigits_eq_some_iff hbase).1 hn
    obtain ⟨hfits, h⟩ := Option.ite_none_right_eq_some.1 h
    exact ⟨⟨hne, hdigits⟩, hfits, (Option.some.inj h).symm⟩
  · rintro ⟨⟨hne, hdigits⟩, hfits, rfl⟩
    exact ⟨_, (readDigits_eq_some_iff hbase).2 ⟨hne, hdigits, rfl⟩, if_pos hfits⟩

theorem AreDigits.ne_underscore (hcs : AreDigits 10 cs) (hc : c ∈ cs) : (c != '_') = true :=
  bne_iff_ne.2 fun heq => absurd (heq ▸ (hcs c hc).2) (by decide)

theorem AreDigits.toLower_eq (hcs : AreDigits 10 cs) (hc : c ∈ cs) : c.toLower = c := by
  unfold Char.toLower
  rw [dif_neg]
  rintro ⟨hletter, -⟩
  have hlow : 'A'.toNat ≤ c.toNat := hletter
  exact absurd (Nat.lt_of_le_of_lt hlow (hcs c hc).2) (by decide)

theorem AreDigits.map_toLower_eq (hcs : AreDigits 10 cs) : cs.map Char.toLower = cs := by
  rw [List.map_congr_left fun c hc => hcs.toLower_eq hc, List.map_id']

/-- an integer without a sign is read without its underscores and in lower case -/
theorem readInteger_of_unsigned (h : cs.head? ≠ some '-') :
    readInteger cs = readBased ((cs.filter (· != '_')).map Char.toLower) := by
  unfold readInteger
  split
  next isNegative digits hsign =>
  split at hsign
  · exact absurd rfl h
  · cases hsign
    dsimp only
    exact Option.map_id'

theorem readInteger_digits (hcs : AreDigits 10 cs) : readInteger cs = readBased cs := by
  have hsign : cs.head? ≠ some '-' := fun hminus =>
    absurd (hcs _ (List.mem_of_mem_head? hminus)).1 (by decide)
  have hfilter : cs.filter (· != '_') = cs := List.filter_eq_self.2 fun c hc =>
    hcs.ne_underscore hc
  rw [readInteger_of_unsigned hsign, hfilter, hcs.map_toLower_eq]

theorem readBased_zero_cons (hcs : AreDigits 10 (c :: cs)) :
    readBased ('0' :: c :: cs) = Number.readInt64 8 (c :: cs) := by
  have hnot : ∀ letter : Char, '0'.toNat + 10 ≤ letter.toNat → c ≠ letter := fun letter hhigh heq =>
    absurd (heq ▸ (hcs c List.mem_cons_self).2) (Nat.not_lt.2 hhigh)
  unfold readBased
  split
  · next heq => exact absurd (List.cons.inj (List.cons.inj heq).2).1 (hnot 'x' (by decide))
  · next heq => exact absurd (List.cons.inj (List.cons.inj heq).2).1 (hnot 'b' (by decide))
  · next heq => exact absurd (List.cons.inj (List.cons.inj heq).2).1 (hnot 'o' (by decide))
  · next heq => exact absurd (List.cons.inj (List.cons.inj heq).2).1 (hnot 'd' (by decide))
  · next heq =>
    cases heq
    rfl
  · next hnone => exact absurd rfl (hnone c cs)

theorem readBased_of_not_isZeroLed (hled : ¬ IsZeroLed cs) : readBased cs = Number.readInt64 10 cs := by
  unfold readBased
  split
  all_goals first | exact absurd ⟨_, _, rfl⟩ hled | rfl

/-- The reader of integer literals reads from digits the number that they stand for, unless it takes more
than sixty-three bits. -/
theorem readInteger_eq_some_iff {i : Int} (hne : cs ≠ []) (hcs : AreDigits 10 cs) :
    readInteger cs = some i ↔
      ∃ n : Nat, UnsignedNumeral cs n ∧ n ≤ Number.maxInt64 ∧ i = n := by
  rw [readInteger_digits hcs]
  by_cases hled : IsZeroLed cs
  · obtain ⟨c, rest, rfl⟩ := hled
    have hrest := (areDigits_cons.1 hcs).2
    rw [readBased_zero_cons hrest, readInt64_eq_some_iff (by decide) hrest]
    constructor
    · rintro ⟨⟨hne, hoctal⟩, hfits, rfl⟩
      exact ⟨_, .octal hne hoctal, hfits, rfl⟩
    · rintro ⟨n, hn, hfits, rfl⟩
      rcases (unsignedNumeral_digits_iff hne hcs).1 hn with ⟨hnot, -⟩ | ⟨_, hne, hoctal, heq, hvalue⟩
      · exact absurd ⟨c, rest, rfl⟩ hnot
      · cases heq
        cases Nat.cast_injective hvalue
        exact ⟨⟨hne, hoctal⟩, hfits, rfl⟩
  · rw [readBased_of_not_isZeroLed hled, readInt64_eq_some_iff (by decide) hcs]
    constructor
    · rintro ⟨-, hfits, rfl⟩
      exact ⟨_, .decimal hne hcs hled, hfits, rfl⟩
    · rintro ⟨n, hn, hfits, rfl⟩
      rcases (unsignedNumeral_digits_iff hne hcs).1 hn with ⟨-, hvalue⟩ | ⟨rest, hne', -, heq, -⟩
      · cases Nat.cast_injective hvalue
        exact ⟨⟨hne, hcs⟩, hfits, rfl⟩
      · obtain ⟨c, rest, rfl⟩ := List.exists_cons_of_ne_nil hne'
        exact absurd ⟨c, rest, heq⟩ hled

end

end RubyLint.Literal
