import RubyLint.Proofs.Literal.Codes
import RubyLint.Proofs.Literal.Numerals
import RubyLint.Ruby.Lexical.Length

/-!
# Integers

The integers that can be written in a program, and the number that each of them denotes.  The digits may be
kept apart by underscores, one between two digits.  A zero and a letter in front of them say what base they
are of, and a zero alone that they are octal.

* `Separated`, `Digits`      digits with underscores between some of them, and their number;
* `IntegerToken`             the integers of a program, each with its number;
* `IntegerToken.readInteger_eq`   each is read as its number, if that has no more than sixty-three bits;
* `integerLength_eq_length_iff`   the grammar takes them for integers, and besides them only digits behind
                             a zero that are not all octal;
* `readInteger_eq_some_iff_token`   what is read from a text that the grammar takes for an integer.
-/

namespace RubyLint.Literal

/-- The digits stand one behind the other, with at most one underscore between two of them. -/
inductive Separated : List Char → List Char → Prop
  | last (c : Char) : Separated [c] [c]
  | next (c : Char) {ds cs : List Char} (h : Separated ds cs) : Separated (c :: ds) (c :: cs)
  | apart (c : Char) {ds cs : List Char} (h : Separated ds cs) : Separated (c :: ds) (c :: '_' :: cs)

/-- The text is digits of the base, some of them kept apart by underscores, and denotes the number. -/
def Digits (base : Nat) (cs : List Char) (n : Nat) : Prop :=
  ∃ ds, Separated ds cs ∧ Spells base ds n

def baseSigns : List (Char × Nat) :=
  [('b', 2), ('B', 2), ('o', 8), ('O', 8), ('d', 10), ('D', 10), ('x', 16), ('X', 16)]

/-- The text is an integer in a program and denotes the number. -/
inductive IntegerToken : List Char → Nat → Prop
  | decimal {cs : List Char} {n : Nat} (h : Digits 10 cs n) (hled : cs.head? ≠ some '0') :
      IntegerToken cs n
  /-- a zero by itself, too -/
  | octal {cs : List Char} {n : Nat} (h : Digits 8 ('0' :: cs) n) : IntegerToken ('0' :: cs) n
  | based {sign : Char} {base : Nat} {cs : List Char} {n : Nat} (hsign : (sign, base) ∈ baseSigns)
      (h : Digits base cs n) : IntegerToken ('0' :: sign :: cs) n

section
variable {base k n : Nat} {c sign : Char} {cs ds : List Char}

/-! ## digits that are kept apart -/

theorem Separated.head?_eq (h : Separated ds cs) : cs.head? = ds.head? := by
  cases h <;> rfl

theorem Separated.plain (c : Char) (cs : List Char) : Separated (c :: cs) (c :: cs) := by
  induction cs generalizing c with
  | nil => exact .last c
  | cons d cs ih => exact .next c (ih d)

theorem Separated.join {ds' cs' : List Char} (h : Separated ds cs) (h' : Separated ds' cs') :
    Separated (ds ++ ds') (cs ++ '_' :: cs') := by
  induction h with
  | last c => exact .apart c h'
  | next c _ ih => exact .next c ih
  | apart c _ ih => exact .apart c ih

theorem Separated.filter_eq (h : Separated ds cs) (hds : ∀ c ∈ ds, c ≠ '_') :
    cs.filter (· != '_') = ds := by
  induction h with
  | last c => exact List.filter_eq_self.2 fun d hd => bne_iff_ne.2 (hds d hd)
  | next c h ih =>
    obtain ⟨hc, hds⟩ := List.forall_mem_cons.1 hds
    rw [List.filter_cons, if_pos (bne_iff_ne.2 hc), ih hds]
  | apart c h ih =>
    obtain ⟨hc, hds⟩ := List.forall_mem_cons.1 hds
    rw [List.filter_cons, if_pos (bne_iff_ne.2 hc), List.filter_cons, if_neg (by decide), ih hds]

theorem zero_le_of_digitIn (h : (Number.digitIn base c).isSome = true) : '0'.toNat ≤ c.toNat := by
  obtain ⟨k, hk⟩ := Option.isSome_iff_exists.1 h
  obtain ⟨hk, -⟩ := digitIn_eq_some_iff_digitValue.1 hk
  unfold Number.digitValue at hk
  split at hk
  · next hc => exact hc.1
  · split at hk
    · next hc => exact Nat.le_trans (by decide : '0'.toNat ≤ 'a'.toNat) hc.1
    · split at hk
      · next hc => exact Nat.le_trans (by decide : '0'.toNat ≤ 'A'.toNat) hc.1
      · cases hk

theorem ne_underscore_of_digitIn (h : (Number.digitIn base c).isSome = true) : c ≠ '_' := by
  rintro rfl
  cases h

theorem digitValue_toLower (c : Char) : Number.digitValue c.toLower = Number.digitValue c := by
  have hupper : ∀ k < 26, Number.digitValue (Char.ofNat ('A'.toNat + k)).toLower =
      Number.digitValue (Char.ofNat ('A'.toNat + k)) := by decide
  by_cases hc : 'A' ≤ c ∧ c ≤ 'Z'
  · have hlow : 'A'.toNat ≤ c.toNat := hc.1
    have hhigh : c.toNat ≤ 'Z'.toNat := hc.2
    have hlt : c.toNat - 'A'.toNat < 26 := by
      have hletters : 'Z'.toNat = 'A'.toNat + 25 := rfl
      omega
    have hfound := hupper _ hlt
    rwa [Nat.add_sub_cancel' hlow, Char.ofNat_toNat] at hfound
  · have hsame : c.toLower = c := dif_neg hc
    rw [hsame]

theorem digitIn_toLower (h : Number.digitIn base c = some k) : Number.digitIn base c.toLower = some k := by
  rw [digitIn_eq_some_iff_digitValue] at h ⊢
  rwa [digitValue_toLower]

theorem Spells.toLower (h : Spells base ds n) : Spells base (ds.map Char.toLower) n := by
  induction h with
  | digit hd => exact .digit (digitIn_toLower hd)
  | behind _ hd ih =>
    rw [List.map_append]
    exact .behind ih (digitIn_toLower hd)

theorem Spells.isDigit (h : Spells base ds n) : ∀ c ∈ ds, (Number.digitIn base c).isSome = true :=
  isDigit_of_readDigits (spells_iff.1 h)

theorem Separated.filter_of_spells (h : Separated ds cs) (hs : Spells base ds n) :
    cs.filter (· != '_') = ds :=
  h.filter_eq fun c hc => ne_underscore_of_digitIn (hs.isDigit c hc)

theorem Digits.cleaned (h : Digits base cs n) :
    Spells base ((cs.filter (· != '_')).map Char.toLower) n := by
  obtain ⟨ds, hds, hs⟩ := h
  rw [hds.filter_of_spells hs]
  exact hs.toLower

theorem Digits.zero_le_head (h : Digits base cs n) : ∀ c ∈ cs.head?, '0'.toNat ≤ c.toNat := by
  obtain ⟨ds, hds, hs⟩ := h
  rw [hds.head?_eq]
  exact fun c hc => zero_le_of_digitIn (hs.isDigit c (List.mem_of_mem_head? hc))

/-! ## the numbers that are read -/

theorem readInt64_of_spells (h : Spells base ds n) : Number.readInt64 base ds =
    if n ≤ Number.maxInt64 then some (n : Int) else none := by
  have hsign := splitSign_of_digit fun c hc =>
    zero_le_of_digitIn (h.isDigit c (List.mem_of_mem_head? hc))
  unfold Number.readInt64
  rw [hsign]
  dsimp only
  rw [spells_iff.1 h]
  rfl

theorem readBased_sign (hsign : (sign, base) ∈ baseSigns) (ds : List Char) :
    readBased ('0' :: sign.toLower :: ds) = Number.readInt64 base ds := by
  have hall : ∀ pair ∈ baseSigns, readBased ('0' :: pair.1.toLower :: ds) = Number.readInt64 pair.2 ds := by
    simp only [baseSigns, List.forall_mem_cons]
    exact ⟨rfl, rfl, rfl, rfl, rfl, rfl, rfl, rfl, fun _ h => absurd h List.not_mem_nil⟩
  exact hall _ hsign

theorem ne_underscore_of_sign (hsign : (sign, base) ∈ baseSigns) : sign ≠ '_' := by
  have hall : ∀ pair ∈ baseSigns, pair.1 ≠ '_' := by decide
  exact hall _ hsign

theorem spells_iff_areDigits (hbase : base ≤ 10) :
    Spells base ds n ↔ ds ≠ [] ∧ AreDigits base ds ∧ n = placeValue base ds :=
  spells_iff.trans (readDigits_eq_some_iff hbase)

theorem readBased_octal (h : Spells 8 ('0' :: ds) n) : readBased ('0' :: ds) =
    if n ≤ Number.maxInt64 then some (n : Int) else none := by
  obtain ⟨-, hdigits, rfl⟩ := (spells_iff_areDigits (by decide)).1 h
  rw [placeValue_zero_cons]
  cases ds with
  | nil => rfl
  | cons c ds =>
    have hoctal := (areDigits_cons.1 hdigits).2
    have hrest : Spells 8 (c :: ds) (placeValue 8 (c :: ds)) :=
      (spells_iff_areDigits (by decide)).2 ⟨List.cons_ne_nil c ds, hoctal, rfl⟩
    rw [readBased_zero_cons (hoctal.mono (by decide)), readInt64_of_spells hrest]

theorem IntegerToken.head?_ne_minus (h : IntegerToken cs n) : cs.head? ≠ some '-' := by
  cases h with
  | decimal h => exact fun hminus => absurd (h.zero_le_head _ hminus) (by decide)
  | octal => exact fun hminus => nomatch hminus
  | based => exact fun hminus => nomatch hminus

/-- The reader of integers finds the number of each, unless it takes more than sixty-three bits. -/
theorem IntegerToken.readInteger_eq (h : IntegerToken cs n) :
    readInteger cs = if n ≤ Number.maxInt64 then some (n : Int) else none := by
  rw [readInteger_of_unsigned h.head?_ne_minus]
  cases h with
  | decimal h hled =>
    obtain ⟨ds, hds, hs⟩ := h
    obtain ⟨-, hdigits, -⟩ := (spells_iff_areDigits (by decide)).1 hs
    -- decimal digits are the same in lower case, so the first of them is still no zero
    rw [hds.filter_of_spells hs, hdigits.map_toLower_eq,
      readBased_of_not_isZeroLed fun ⟨c, rest, heq⟩ => hled (by rw [hds.head?_eq, heq]; rfl)]
    exact readInt64_of_spells hs
  | octal h => exact readBased_octal h.cleaned
  | @based sign base cs n hsign h =>
    have hclean : ('0' :: sign :: cs).filter (· != '_') = '0' :: sign :: cs.filter (· != '_') := by
      rw [List.filter_cons, if_pos (by decide), List.filter_cons,
        if_pos (bne_iff_ne.2 (ne_underscore_of_sign hsign))]
    rw [hclean]
    exact (readBased_sign hsign _).trans (readInt64_of_spells h.cleaned)

end

/-! ## what the grammar takes for an integer -/

section
variable {p : Char → Bool} {base n m : Nat} {c sign : Char} {cs ds : List Char}

theorem Separated.exists_cons (h : Separated ds cs) : ∃ d ds' cs', ds = d :: ds' ∧ cs = d :: cs' := by
  cases h with
  | last c => exact ⟨c, [], [], rfl, rfl⟩
  | next c => exact ⟨c, _, _, rfl, rfl⟩
  | apart c => exact ⟨c, _, _, rfl, rfl⟩

theorem digitsLength_cons (p : Char → Bool) (c : Char) (cs : List Char) : Ruby.digitsLength p (c :: cs) =
    if p c then 1 + Ruby.moreDigitsLength p cs else 0 := rfl

theorem moreDigitsLength_le (p : Char → Bool) (cs : List Char) :
    Ruby.moreDigitsLength p cs ≤ cs.length := by
  fun_induction Ruby.moreDigitsLength p cs with
  | case1 c cs _ ih =>
    rw [List.length_cons, List.length_cons]
    omega
  | case2 => exact Nat.zero_le _
  | case3 c cs _ _ ih =>
    rw [List.length_cons]
    omega
  | case4 => exact Nat.zero_le _
  | case5 => exact Nat.le_refl _

theorem digitsLength_le (p : Char → Bool) (cs : List Char) : Ruby.digitsLength p cs ≤ cs.length := by
  cases cs with
  | nil => exact Nat.le_refl _
  | cons c cs =>
    have hmore := moreDigitsLength_le p cs
    rw [digitsLength_cons, List.length_cons]
    split <;> omega

theorem basedLength_le (signs : List Char) (p : Char → Bool) (cs : List Char) :
    Ruby.basedLength signs p cs ≤ cs.length := by
  unfold Ruby.basedLength
  split
  · next sign rest =>
    have hdigits := digitsLength_le p rest
    rw [List.length_cons, List.length_cons]
    split
    · split <;> omega
    · exact Nat.zero_le _
  · exact Nat.zero_le _

/-- digits that go on to the end are digits with underscores between them -/
theorem exists_separated_of_moreDigitsLength (h : Ruby.moreDigitsLength p cs = cs.length) (hc : p c = true) :
    ∃ ds, Separated ds (c :: cs) ∧ ∀ d ∈ ds, p d = true := by
  fun_induction Ruby.moreDigitsLength p cs generalizing c with
  | case1 d cs hd ih =>
    obtain ⟨ds, hds, hall⟩ := ih (by simp only [List.length_cons] at h; omega) hd
    exact ⟨c :: ds, .apart c hds, List.forall_mem_cons.2 ⟨hc, hall⟩⟩
  | case2 d cs hd => cases h
  | case3 d cs _ hd ih =>
    obtain ⟨ds, hds, hall⟩ := ih (by simp only [List.length_cons] at h; omega) hd
    exact ⟨c :: ds, .next c hds, List.forall_mem_cons.2 ⟨hc, hall⟩⟩
  | case4 d cs _ hd => cases h
  | case5 => exact ⟨[c], .last c, List.forall_mem_singleton.2 hc⟩

theorem moreDigitsLength_digit (hc : c ≠ '_') (cs : List Char) :
    Ruby.moreDigitsLength p (c :: cs) = Ruby.digitsLength p (c :: cs) := by
  rw [Ruby.moreDigitsLength.eq_def]
  split
  · next heq => exact absurd (List.cons.inj heq).1 hc
  · next heq =>
    cases heq
    rfl
  · next heq => cases heq

theorem moreDigitsLength_underscore (hc : p c = true) (cs : List Char) :
    Ruby.moreDigitsLength p ('_' :: c :: cs) = Ruby.digitsLength p (c :: cs) + 1 := by
  rw [Ruby.moreDigitsLength, Ruby.digitsLength, if_pos hc, if_pos hc]
  omega

theorem Separated.digitsLength_eq (h : Separated ds cs) (hp : p '_' = false)
    (hds : ∀ d ∈ ds, p d = true) : Ruby.digitsLength p cs = cs.length := by
  induction h with
  | last c =>
    rw [digitsLength_cons, if_pos (hds c List.mem_cons_self)]
    rfl
  | next c h ih =>
    obtain ⟨hc, hds⟩ := List.forall_mem_cons.1 hds
    obtain ⟨d, ds, cs, rfl, rfl⟩ := h.exists_cons
    have hd : d ≠ '_' := by
      rintro rfl
      exact absurd (hds '_' List.mem_cons_self) (by rw [hp]; decide)
    rw [digitsLength_cons, if_pos hc, moreDigitsLength_digit hd, ih hds, Nat.add_comm]
    rfl
  | apart c h ih =>
    obtain ⟨hc, hds⟩ := List.forall_mem_cons.1 hds
    obtain ⟨d, ds, cs, rfl, rfl⟩ := h.exists_cons
    rw [digitsLength_cons, if_pos hc, moreDigitsLength_underscore (hds d List.mem_cons_self), ih hds,
      Nat.add_comm]
    rfl

theorem digitsLength_eq_length_iff (hp : ∀ c, p c = (Number.digitIn base c).isSome) (hne : cs ≠ []) :
    Ruby.digitsLength p cs = cs.length ↔ ∃ n, Digits base cs n := by
  constructor
  · intro h
    obtain ⟨c, cs, rfl⟩ := List.exists_cons_of_ne_nil hne
    rw [digitsLength_cons, List.length_cons] at h
    split at h
    · next hc =>
      have hmore : Ruby.moreDigitsLength p cs = cs.length := by omega
      obtain ⟨ds, hds, hall⟩ := exists_separated_of_moreDigitsLength hmore hc
      obtain ⟨d, ds, -, rfl, -⟩ := hds.exists_cons
      obtain ⟨n, hn⟩ := exists_readDigits (List.cons_ne_nil d ds) fun c hc => hp c ▸ hall c hc
      exact ⟨n, _, hds, spells_iff.2 hn⟩
    · cases h
  · rintro ⟨n, ds, hds, hs⟩
    exact hds.digitsLength_eq ((hp '_').trans rfl) fun c hc => (hp c).trans (hs.isDigit c hc)

theorem basedLength_eq_length_iff (signs : List Char) (hp : ∀ c, p c = (Number.digitIn base c).isSome)
    (hne : cs ≠ []) : Ruby.basedLength signs p cs = cs.length ↔
      ∃ sign rest n, cs = '0' :: sign :: rest ∧ sign ∈ signs ∧ Digits base rest n := by
  constructor
  · intro h
    unfold Ruby.basedLength at h
    split at h
    · next sign rest =>
      split at h
      · next hsign =>
        split at h
        · cases h
        · next k hk =>
          have hlength : Ruby.digitsLength p rest = rest.length := by
            simp only [List.length_cons] at h
            omega
          have hrest : rest ≠ [] := by
            rintro rfl
            cases hk
          obtain ⟨n, hn⟩ := (digitsLength_eq_length_iff hp hrest).1 hlength
          exact ⟨sign, rest, n, rfl, List.contains_iff_mem.1 hsign, hn⟩
      · cases h
    · exact absurd (List.length_eq_zero_iff.1 h.symm) hne
  · rintro ⟨sign, rest, n, rfl, hsign, hn⟩
    have hrest : rest ≠ [] := by
      rintro rfl
      obtain ⟨ds, hds, -⟩ := hn
      cases hds
    have hlength := (digitsLength_eq_length_iff hp hrest).2 ⟨n, hn⟩
    have hpos : 0 < rest.length := List.length_pos_iff.2 hrest
    rw [Ruby.basedLength, if_pos (List.contains_iff_mem.2 hsign), hlength]
    obtain ⟨k, hk⟩ := Nat.exists_eq_add_of_lt hpos
    rw [List.length_cons, List.length_cons, hk]

/-! ### digits of each base -/

theorem isBinaryDigit_eq (c : Char) : Ruby.isBinaryDigit c = (Number.digitIn 2 c).isSome := by
  rw [Bool.eq_iff_iff, isSome_digitIn_iff (by decide)]
  unfold Ruby.isBinaryDigit
  rw [Bool.or_eq_true, beq_iff_eq, beq_iff_eq, ← Char.toNat_inj, ← Char.toNat_inj]
  show c.toNat = 48 ∨ c.toNat = 49 ↔ 48 ≤ c.toNat ∧ c.toNat < 50
  omega

theorem isOctalDigit_eq (c : Char) : Ruby.isOctalDigit c = (Number.digitIn 8 c).isSome := by
  rw [Bool.eq_iff_iff, isSome_digitIn_iff (by decide)]
  unfold Ruby.isOctalDigit
  rw [Bool.and_eq_true, decide_eq_true_eq, decide_eq_true_eq]
  show 48 ≤ c.toNat ∧ c.toNat ≤ 55 ↔ 48 ≤ c.toNat ∧ c.toNat < 56
  omega

theorem isDecimalDigit_eq (c : Char) : Ruby.isDigit c = (Number.digitIn 10 c).isSome := by
  rw [Bool.eq_iff_iff, isSome_digitIn_iff (by decide), ← le_nine_iff]
  unfold Ruby.isDigit
  rw [Bool.and_eq_true, decide_eq_true_eq, decide_eq_true_eq]

theorem isHexDigit_eq (c : Char) : Ruby.isHexDigit c = (Number.digitIn 16 c).isSome := by
  rw [Bool.eq_iff_iff, Option.isSome_iff_exists]
  simp only [digitIn_eq_some_iff_digitValue]
  have hle : ∀ d : Char, d ≤ c ↔ d.toNat ≤ c.toNat := fun _ => Iff.rfl
  have hge : ∀ d : Char, c ≤ d ↔ c.toNat ≤ d.toNat := fun _ => Iff.rfl
  unfold Ruby.isHexDigit Ruby.isDigit Number.digitValue
  simp only [Bool.or_eq_true, Bool.and_eq_true, decide_eq_true_eq, hle, hge, Char.reduceToNat]
  split_ifs <;> simp <;> omega

/-! ### every integer -/

theorem Digits.unique (h : Digits base cs n) (h' : Digits base cs m) : n = m := by
  obtain ⟨ds, hds, hs⟩ := h
  obtain ⟨ds', hds', hs'⟩ := h'
  obtain rfl : ds = ds' := (hds.filter_of_spells hs).symm.trans (hds'.filter_of_spells hs')
  exact Option.some.inj ((spells_iff.1 hs).symm.trans (spells_iff.1 hs'))

theorem Digits.second (h : Digits base (c :: sign :: cs) n) :
    sign = '_' ∨ (Number.digitIn base sign).isSome = true := by
  obtain ⟨ds, hds, hs⟩ := h
  cases hds with
  | next _ h =>
    obtain ⟨d, ds, cs, rfl, heq⟩ := h.exists_cons
    cases heq
    exact .inr (hs.isDigit _ (List.mem_cons_of_mem c List.mem_cons_self))
  | apart => exact .inl rfl

theorem not_digits_of_sign (hsign : (sign, base) ∈ baseSigns) : ¬ Digits 8 ('0' :: sign :: cs) n := by
  have hnone : ∀ pair ∈ baseSigns, Number.digitIn 8 pair.1 = none := by decide
  intro h
  rcases h.second with hunderscore | hsome
  · exact ne_underscore_of_sign hsign hunderscore
  · rw [hnone _ hsign] at hsome
    cases hsome

theorem IntegerToken.unique (h : IntegerToken cs n) (h' : IntegerToken cs m) : n = m := by
  have hsigns : ∀ pair ∈ baseSigns, ∀ pair' ∈ baseSigns, pair.1 = pair'.1 → pair = pair' := by decide
  cases h with
  | decimal h hled =>
    cases h' with
    | decimal h' => exact h.unique h'
    | octal | based => exact absurd rfl hled
  | octal h =>
    cases h' with
    | decimal _ hled => exact absurd rfl hled
    | octal h' => exact h.unique h'
    | based hsign => exact absurd h (not_digits_of_sign hsign)
  | based hsign h =>
    cases h' with
    | decimal _ hled => exact absurd rfl hled
    | octal h' => exact absurd h' (not_digits_of_sign hsign)
    | based hsign' h' =>
      cases hsigns _ hsign _ hsign' rfl
      exact h.unique h'

theorem mem_baseSigns_iff : (sign, base) ∈ baseSigns ↔
    sign ∈ ['b', 'B'] ∧ base = 2 ∨ sign ∈ ['o', 'O'] ∧ base = 8 ∨
      sign ∈ ['d', 'D'] ∧ base = 10 ∨ sign ∈ ['x', 'X'] ∧ base = 16 := by
  simp only [baseSigns, List.mem_cons, List.not_mem_nil, Prod.mk.injEq, or_false, or_and_right, or_assoc]

/-- one of the readings that the grammar has for integers goes to the end of the text -/
theorem integerLength_eq_length_iff_exists (hne : cs ≠ []) : Ruby.integerLength cs = cs.length ↔
    (∃ n, Digits 10 cs n) ∨
      ∃ sign base rest n, cs = '0' :: sign :: rest ∧ (sign, base) ∈ baseSigns ∧ Digits base rest n := by
  have hbinary := basedLength_eq_length_iff ['b', 'B'] isBinaryDigit_eq hne
  have hoctal := basedLength_eq_length_iff ['o', 'O'] isOctalDigit_eq hne
  have hdecimal := basedLength_eq_length_iff ['d', 'D'] isDecimalDigit_eq hne
  have hhex := basedLength_eq_length_iff ['x', 'X'] isHexDigit_eq hne
  have hplain := digitsLength_eq_length_iff isDecimalDigit_eq hne
  have hmax : Ruby.integerLength cs = cs.length ↔
      Ruby.basedLength ['b', 'B'] Ruby.isBinaryDigit cs = cs.length ∨
      Ruby.basedLength ['o', 'O'] Ruby.isOctalDigit cs = cs.length ∨
      Ruby.basedLength ['d', 'D'] Ruby.isDigit cs = cs.length ∨
      Ruby.basedLength ['x', 'X'] Ruby.isHexDigit cs = cs.length ∨
      Ruby.digitsLength Ruby.isDigit cs = cs.length := by
    have hpos : 0 < cs.length := List.length_pos_iff.2 hne
    have hb := basedLength_le ['b', 'B'] Ruby.isBinaryDigit cs
    have ho := basedLength_le ['o', 'O'] Ruby.isOctalDigit cs
    have hd := basedLength_le ['d', 'D'] Ruby.isDigit cs
    have hx := basedLength_le ['x', 'X'] Ruby.isHexDigit cs
    have hp := digitsLength_le Ruby.isDigit cs
    unfold Ruby.integerLength
    simp only [List.foldl_cons, List.foldl_nil]
    omega
  rw [hmax, hbinary, hoctal, hdecimal, hhex, hplain]
  constructor
  · rintro (⟨sign, rest, n, heq, hsign, hn⟩ | ⟨sign, rest, n, heq, hsign, hn⟩ |
      ⟨sign, rest, n, heq, hsign, hn⟩ | ⟨sign, rest, n, heq, hsign, hn⟩ | h)
    · exact .inr ⟨sign, 2, rest, n, heq, mem_baseSigns_iff.2 (.inl ⟨hsign, rfl⟩), hn⟩
    · exact .inr ⟨sign, 8, rest, n, heq, mem_baseSigns_iff.2 (.inr (.inl ⟨hsign, rfl⟩)), hn⟩
    · exact .inr ⟨sign, 10, rest, n, heq, mem_baseSigns_iff.2 (.inr (.inr (.inl ⟨hsign, rfl⟩))), hn⟩
    · exact .inr ⟨sign, 16, rest, n, heq, mem_baseSigns_iff.2 (.inr (.inr (.inr ⟨hsign, rfl⟩))), hn⟩
    · exact .inl h
  · rintro (h | ⟨sign, base, rest, n, heq, hmem, hn⟩)
    · exact .inr (.inr (.inr (.inr h)))
    · rcases mem_baseSigns_iff.1 hmem with ⟨hsign, rfl⟩ | ⟨hsign, rfl⟩ | ⟨hsign, rfl⟩ | ⟨hsign, rfl⟩
      · exact .inl ⟨sign, rest, n, heq, hsign, hn⟩
      · exact .inr (.inl ⟨sign, rest, n, heq, hsign, hn⟩)
      · exact .inr (.inr (.inl ⟨sign, rest, n, heq, hsign, hn⟩))
      · exact .inr (.inr (.inr (.inl ⟨sign, rest, n, heq, hsign, hn⟩)))

theorem Separated.digits (h : Separated ds cs) (hbase : base ≤ 10) (hds : AreDigits base ds) :
    Digits base cs (placeValue base ds) := by
  obtain ⟨d, ds, cs, rfl, rfl⟩ := h.exists_cons
  exact ⟨_, h, (spells_iff_areDigits hbase).2 ⟨List.cons_ne_nil d ds, hds, rfl⟩⟩

/-- The text is digits behind a zero which are not all octal, some of them kept apart by underscores. -/
def MisplacedZero (cs : List Char) : Prop :=
  ∃ ds, Separated ('0' :: ds) cs ∧ AreDigits 10 ds ∧ ¬ AreDigits 8 ds

theorem IntegerToken.ne_nil (h : IntegerToken cs n) : cs ≠ [] := by
  cases h with
  | decimal h =>
    rintro rfl
    obtain ⟨ds, hds, -⟩ := h
    cases hds
  | octal | based => exact List.cons_ne_nil _ _

/-- The grammar takes for integers the integers, each of which denotes one number, and besides them only
digits behind a zero that are not all octal. -/
theorem integerLength_eq_length_iff (hne : cs ≠ []) : Ruby.integerLength cs = cs.length ↔
    (∃! n, IntegerToken cs n) ∨ MisplacedZero cs := by
  rw [integerLength_eq_length_iff_exists hne]
  have hone : ∀ n, IntegerToken cs n → ∃! n, IntegerToken cs n := fun n h =>
    ⟨n, h, fun m h' => h'.unique h⟩
  constructor
  · rintro (⟨n, h⟩ | ⟨sign, base, rest, n, rfl, hsign, h⟩)
    · by_cases hled : cs.head? = some '0'
      · obtain ⟨ds, hds, hs⟩ := h
        obtain ⟨-, hdigits, -⟩ := (spells_iff_areDigits (by decide)).1 hs
        obtain ⟨d, ds, cs, rfl, rfl⟩ := hds.exists_cons
        cases hled
        -- behind a zero only octal digits make an integer
        by_cases hoctal : AreDigits 8 ds
        · exact .inl (hone _ (.octal (hds.digits (by decide) (areDigits_cons.2 ⟨by decide, hoctal⟩))))
        · exact .inr ⟨ds, hds, (areDigits_cons.1 hdigits).2, hoctal⟩
      · exact .inl (hone n (.decimal h hled))
    · exact .inl (hone n (.based hsign h))
  · rintro (⟨n, h, -⟩ | ⟨ds, hds, hdecimal, -⟩)
    · cases h with
      | decimal h => exact .inl ⟨n, h⟩
      | octal h =>
        obtain ⟨ds, hds, hs⟩ := h
        obtain ⟨-, hoctal, -⟩ := (spells_iff_areDigits (by decide)).1 hs
        exact .inl ⟨_, hds.digits (by decide) (hoctal.mono (by decide))⟩
      | based hsign h => exact .inr ⟨_, _, _, n, rfl, hsign, h⟩
    · exact .inl ⟨_, hds.digits (by decide) (areDigits_cons.2 ⟨by decide, hdecimal⟩)⟩

/-- The number of digits behind a zero that are not all octal is not read. -/
theorem MisplacedZero.readInteger_eq (h : MisplacedZero cs) : readInteger cs = none := by
  obtain ⟨ds, hds, hdecimal, hoctal⟩ := h
  have hall : AreDigits 10 ('0' :: ds) := areDigits_cons.2 ⟨by decide, hdecimal⟩
  have hsign : cs.head? ≠ some '-' := by
    rw [hds.head?_eq]
    exact fun hminus => nomatch hminus
  rw [readInteger_of_unsigned hsign, hds.filter_eq fun c hc => bne_iff_ne.1 (hall.ne_underscore hc),
    hall.map_toLower_eq]
  cases ds with
  | nil => exact absurd (fun c hc => absurd hc List.not_mem_nil) hoctal
  | cons c ds =>
    rw [readBased_zero_cons hdecimal, Option.eq_none_iff_forall_ne_some]
    exact fun i hi => hoctal ((readInt64_eq_some_iff (by decide) hdecimal).1 hi).1.2

/-- Of what the grammar takes for an integer, the number is read that it denotes, unless it takes more than
sixty-three bits, and else nothing. -/
theorem readInteger_eq_some_iff_token {i : Int} (hne : cs ≠ []) (h : Ruby.integerLength cs = cs.length) :
    readInteger cs = some i ↔ ∃ n : Nat, IntegerToken cs n ∧ n ≤ Number.maxInt64 ∧ i = n := by
  have hread : ∀ n, IntegerToken cs n → (readInteger cs = some i ↔ n ≤ Number.maxInt64 ∧ i = n) := by
    intro n hn
    rw [hn.readInteger_eq, Option.ite_none_right_eq_some, Option.some.injEq, eq_comm]
  constructor
  · intro hi
    rcases (integerLength_eq_length_iff hne).1 h with ⟨n, hn, -⟩ | hzero
    · exact ⟨n, hn, (hread n hn).1 hi⟩
    · rw [hzero.readInteger_eq] at hi
      cases hi
  · rintro ⟨n, hn, hfits⟩
    exact (hread n hn).2 hfits

end

end RubyLint.Literal
