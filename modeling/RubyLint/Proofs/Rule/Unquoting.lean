import Mathlib.Data.List.TakeWhile
import RubyLint.Proofs.Literal.Numerals
import RubyLint.Proofs.Rule.Calls
import RubyLint.Proofs.Rule.Unreadable
import RubyLint.Ruby.Layout.Literal

/-!
# Numbers without their quotes

A decimal number that is made from a string could be made from a numeral.  The rule writes the text of the
string as it is, and the text need not stand for the number that it is as a decimal.

* `PlainNumber`, `isPlainNumber_iff`   the texts that the rule takes for numbers, with their numbers;
* `Unquotes`, `decimalVerdict_unquotes`   the rule puts the text itself where the string is, or in a call;
* `numeral_text_iff`         the text is a numeral for its number, but for zeros in front;
* `readInteger_unsigned_iff`, `readFloat_unsigned`   what is read from it without its sign.
-/

namespace RubyLint.Rule

open Literal

/-! ## texts of numbers -/

/-- A number as it is written out: digits, with an optional minus in front and an optional fraction. -/
structure PlainNumber where
  isNegative : Bool
  whole : List Char
  fraction? : Option (List Char)
  whole_ne_nil : whole ≠ []
  areDigits_whole : AreDigits 10 whole
  fraction_ne_nil : ∀ part ∈ fraction?, part ≠ []
  areDigits_fraction : ∀ part ∈ fraction?, AreDigits 10 part

namespace PlainNumber

/-- what is written behind the minus -/
def unsigned (p : PlainNumber) : List Char :=
  match p.fraction? with
  | none => p.whole
  | some part => p.whole ++ '.' :: part

def text (p : PlainNumber) : List Char :=
  if p.isNegative then '-' :: p.unsigned else p.unsigned

/-- the digits on both sides of the point -/
def digits (p : PlainNumber) : List Char := p.whole ++ p.fraction?.getD []

/-- how many of them stand behind the point -/
def places (p : PlainNumber) : Nat := (p.fraction?.getD []).length

/-- the number without its sign: each decimal digit counts by its place -/
def magnitude (p : PlainNumber) : ℚ := placeValue 10 p.digits / 10 ^ p.places

/-- The number that the text is as a decimal. -/
def number (p : PlainNumber) : ℚ := if p.isNegative then -p.magnitude else p.magnitude

end PlainNumber

section
variable {cs : List Char}

theorem isDigits_iff : isDigits cs = true ↔ cs ≠ [] ∧ AreDigits 10 cs := by
  unfold isDigits
  rw [Bool.and_eq_true, Bool.not_eq_true', List.isEmpty_eq_false_iff, List.all_eq_true]
  refine and_congr_right fun _ => forall₂_congr fun c _ => ?_
  unfold Literal.isDigit
  rw [Bool.and_eq_true, decide_eq_true_eq, decide_eq_true_eq, le_nine_iff]

end

namespace PlainNumber

variable (p : PlainNumber)

theorem unsigned_of_none (h : p.fraction? = none) : p.unsigned = p.whole := by
  unfold unsigned
  rw [h]

theorem unsigned_of_some {part : List Char} (h : p.fraction? = some part) :
    p.unsigned = p.whole ++ '.' :: part := by
  unfold unsigned
  rw [h]

theorem head?_unsigned : ∀ c ∈ p.unsigned.head?, '0'.toNat ≤ c.toNat := by
  obtain ⟨d, rest, hwhole⟩ := List.exists_cons_of_ne_nil p.whole_ne_nil
  have hdigit := (p.areDigits_whole d (hwhole ▸ List.mem_cons_self)).1
  have hhead : p.unsigned.head? = some d := by
    cases h : p.fraction? with
    | none => rw [p.unsigned_of_none h, hwhole, List.head?_cons]
    | some part => rw [p.unsigned_of_some h, hwhole, List.cons_append, List.head?_cons]
  rintro c hc
  rw [hhead] at hc
  exact Option.some.inj hc ▸ hdigit

theorem unsigned_ne_minus_cons (rest : List Char) : p.unsigned ≠ '-' :: rest := fun h =>
  absurd (p.head?_unsigned '-' (h ▸ rfl)) (by decide)

theorem areDigits_cut_iff (isNegative : Bool) {cs : List Char} :
    (match Text.cutAt? '.' cs with
      | some (whole, part) => isDigits whole && isDigits part
      | none => isDigits cs) = true ↔
        ∃ p : PlainNumber, p.isNegative = isNegative ∧ p.unsigned = cs := by
  constructor
  · intro h
    split at h
    · next whole part hcut =>
      obtain ⟨rfl, -⟩ := Text.cutAt?_eq_some_iff.1 hcut
      obtain ⟨hwhole, hpart⟩ := Bool.and_eq_true_iff.1 h
      obtain ⟨hne, hwhole⟩ := isDigits_iff.1 hwhole
      obtain ⟨hne', hpart⟩ := isDigits_iff.1 hpart
      exact ⟨⟨isNegative, whole, some part, hne, hwhole, fun _ h => Option.some.inj h ▸ hne',
        fun _ h => Option.some.inj h ▸ hpart⟩, rfl, rfl⟩
    · obtain ⟨hne, hdigits⟩ := isDigits_iff.1 h
      exact ⟨⟨isNegative, cs, none, hne, hdigits, nofun, nofun⟩, rfl, rfl⟩
  · rintro ⟨p, -, rfl⟩
    have hwhole := p.areDigits_whole.not_mem_point
    cases hfraction : p.fraction? with
    | none =>
      rw [p.unsigned_of_none hfraction, Text.cutAt?_eq_none hwhole]
      exact isDigits_iff.2 ⟨p.whole_ne_nil, p.areDigits_whole⟩
    | some part =>
      rw [p.unsigned_of_some hfraction, Text.cutAt?_append hwhole, Bool.and_eq_true]
      exact ⟨isDigits_iff.2 ⟨p.whole_ne_nil, p.areDigits_whole⟩,
        isDigits_iff.2 ⟨p.fraction_ne_nil part hfraction, p.areDigits_fraction part hfraction⟩⟩

theorem text_eq_minus_cons_iff {rest : List Char} :
    p.text = '-' :: rest ↔ p.isNegative = true ∧ p.unsigned = rest := by
  have hne := p.unsigned_ne_minus_cons rest
  unfold text
  cases p.isNegative <;> simp [hne]

theorem text_eq_iff {cs : List Char} (h : ∀ rest, cs ≠ '-' :: rest) :
    p.text = cs ↔ p.isNegative = false ∧ p.unsigned = cs := by
  have hne := (h p.unsigned).symm
  unfold text
  cases p.isNegative <;> simp [hne]

end PlainNumber

/-- Exactly the texts of numbers are taken for one. -/
theorem isPlainNumber_iff {cs : List Char} :
    isPlainNumber cs = true ↔ ∃ p : PlainNumber, p.text = cs := by
  unfold isPlainNumber
  split
  · refine (PlainNumber.areDigits_cut_iff true).trans (exists_congr fun p => ?_)
    exact p.text_eq_minus_cons_iff.symm
  · next hminus =>
    refine (PlainNumber.areDigits_cut_iff false).trans (exists_congr fun p => ?_)
    exact (p.text_eq_iff hminus).symm

namespace PlainNumber

variable (p : PlainNumber)

theorem numeral_text_iff_unsigned : Numeral p.text p.number ↔ UnsignedNumeral p.unsigned p.magnitude := by
  unfold text number
  split
  · exact numeral_minus_iff
  · exact numeral_iff_unsignedNumeral p.unsigned_ne_minus_cons

/-- The text is a numeral for its number exactly if no zero stands in front of another digit, or if it has
no fraction and comes to less than eight. -/
theorem numeral_text_iff : Numeral p.text p.number ↔
    ¬ IsZeroLed p.whole ∨ p.fraction? = none ∧ placeValue 10 p.whole < 8 := by
  rw [numeral_text_iff_unsigned]
  unfold magnitude digits places
  cases h : p.fraction? with
  | none =>
    have hnumber : (placeValue 10 (p.whole ++ []) / 10 ^ ([] : List Char).length : ℚ) =
        placeValue 10 p.whole := by simp
    rw [p.unsigned_of_none h, Option.getD_none, hnumber,
      unsignedNumeral_placeValue_iff p.whole_ne_nil p.areDigits_whole]
    simp
  | some part =>
    rw [p.unsigned_of_some h, Option.getD_some,
      unsignedNumeral_fraction_iff p.whole_ne_nil p.areDigits_whole (p.fraction_ne_nil part h)
      (p.areDigits_fraction part h)]
    simp

/-- Without its sign an integer is read as its number exactly if it is a numeral for it and fits. -/
theorem readInteger_unsigned_iff (h : p.fraction? = none) :
    readInteger p.unsigned = some (placeValue 10 p.whole : Int) ↔
      placeValue 10 p.whole ≤ Number.maxInt64 ∧ (¬ IsZeroLed p.whole ∨ placeValue 10 p.whole < 8) := by
  rw [p.unsigned_of_none h, readInteger_eq_some_iff p.whole_ne_nil p.areDigits_whole,
    ← unsignedNumeral_placeValue_iff p.whole_ne_nil p.areDigits_whole]
  constructor
  · rintro ⟨n, hn, hfits, heq⟩
    obtain rfl := Int.ofNat.inj heq
    exact ⟨hfits, hn⟩
  · rintro ⟨hfits, hn⟩
    exact ⟨_, hn, hfits, rfl⟩

end PlainNumber

/-! ## fractions that are read -/

theorem isDigit_of_areDigits {cs : List Char} (h : AreDigits 10 cs) :
    ∀ c ∈ cs, Number.Double.isDigit c = true := by
  intro c hc
  unfold Number.Double.isDigit
  rw [Bool.and_eq_true, decide_eq_true_eq, decide_eq_true_eq, le_nine_iff]
  exact h c hc

theorem readMagnitude_fraction {whole part : List Char} (hne : whole ≠ []) (hwhole : AreDigits 10 whole)
    (hpart : AreDigits 10 part) : Number.Double.readMagnitude (whole ++ '.' :: part) =
      some (Number.Double.ofScientific (placeValue 10 (whole ++ part))
        ((whole ++ part).dropWhile (· == '0')).length (0 - part.length)) := by
  have hname : ∀ name : List Char, name.head? = some 'i' ∨ name.head? = some 'n' →
      Number.Double.lower (whole ++ '.' :: part) ≠ name := by
    obtain ⟨c, rest, rfl⟩ := List.exists_cons_of_ne_nil hne
    rintro name hletter rfl
    have hhead : (Number.Double.lower (c :: rest ++ '.' :: part)).head? = some c :=
      congrArg some (hwhole.toLower_eq List.mem_cons_self)
    have hc := (hwhole c List.mem_cons_self).2
    rw [hhead] at hletter
    rcases hletter with h | h <;> cases h <;> exact absurd hc (by decide)
  have htake : (whole ++ '.' :: part).takeWhile Number.Double.isDigit = whole := by
    rw [List.takeWhile_append_of_pos (isDigit_of_areDigits hwhole), List.takeWhile_cons_of_neg (by decide),
      List.append_nil]
  have hdrop : (whole ++ '.' :: part).dropWhile Number.Double.isDigit = '.' :: part := by
    rw [List.dropWhile_append_of_pos (isDigit_of_areDigits hwhole), List.dropWhile_cons_of_neg (by decide)]
  have htake' : part.takeWhile Number.Double.isDigit = part :=
    List.takeWhile_eq_self_iff.2 (isDigit_of_areDigits hpart)
  have hdrop' : part.dropWhile Number.Double.isDigit = [] :=
    List.dropWhile_eq_nil_iff.2 (isDigit_of_areDigits hpart)
  have hread : Number.readDigits 10 (whole ++ part) = some (placeValue 10 (whole ++ part)) :=
    (readDigits_eq_some_iff (by decide)).2
      ⟨List.append_ne_nil_of_left_ne_nil hne part, areDigits_append.2 ⟨hwhole, hpart⟩, rfl⟩
  unfold Number.Double.readMagnitude
  rw [if_neg (not_or.2 ⟨hname _ (by decide), hname _ (by decide)⟩), if_neg (hname _ (by decide))]
  simp only [htake, hdrop, htake', hdrop', hread]
  rw [if_neg (by simp [hne])]
  rfl

namespace PlainNumber

variable (p : PlainNumber)

/-- Without its sign a fraction is read as the double of its digits and places. -/
theorem readFloat_unsigned {part : List Char} (h : p.fraction? = some part) :
    Ruby.Layout.readFloat p.unsigned = some (Number.Double.ofMagnitude false
      (Number.Double.ofScientific (placeValue 10 p.digits)
        (p.digits.dropWhile (· == '0')).length (0 - p.places))) := by
  have hpart := p.areDigits_fraction part h
  have hfilter : (p.whole ++ '.' :: part).filter (· != '_') = p.whole ++ '.' :: part := by
    rw [List.filter_eq_self]
    rintro c hc
    rcases List.mem_append.1 hc with hc | hc
    · exact p.areDigits_whole.ne_underscore hc
    · rcases List.mem_cons.1 hc with rfl | hc
      · rfl
      · exact hpart.ne_underscore hc
  have hsign := splitSign_of_digit p.head?_unsigned
  unfold digits places
  rw [p.unsigned_of_some h] at hsign ⊢
  rw [h, Option.getD_some, Ruby.Layout.readFloat, hfilter, Number.Double.ofDecimal, hsign]
  exact congrArg (Option.map _) (readMagnitude_fraction p.whole_ne_nil p.areDigits_whole hpart)

end PlainNumber

/-! ## what the rule writes -/

section
variable {t : SyntaxTree} {n string : Node t}

open Pattern (Captures Condition Derivation)

/-- What a number made from a string becomes.  The string is the first argument of the call that makes it,
or the receiver. -/
inductive Unquotes (n string : Node t) (text : String) : Edit → Prop
  | argument {rest : List (NodeChild t)}
      (h : n.children = .value .nil :: .value (.sym "BigDecimal") :: .node string :: rest) :
      Unquotes n string text ⟨string.span, text⟩
  | receiver {rest : List (NodeChild t)} {texts : List String}
      (h : n.children = .node string :: .value (.sym "to_d") :: rest)
      (htexts : n.arguments.map Node.source? = texts.map some) :
      Unquotes n string text ⟨n.span, "BigDecimal(" ++ String.intercalate ", " (text :: texts) ++ ")"⟩

theorem children_of_bigDecimalOfText {caps : Captures t} (hm : bigDecimalOfText.match? n = some caps)
    (hstring : caps.node? 0 = some string) :
    ∃ rest, n.children = .value .nil :: .value (.sym "BigDecimal") :: .node string :: rest := by
  obtain ⟨d, hd, hcaps⟩ := bigDecimalOfTextCompiled.exists_derives hm
  obtain ⟨xs, ys, ds, hchildren, hds, hbindings⟩ := hd.frontKind_inv
  obtain ⟨c, xs, e, es, rfl, rfl, hfirst, hrest⟩ := hds.cons_inv
  obtain ⟨c', xs, e', es, rfl, rfl, hsecond, hrest⟩ := hrest.cons_inv
  obtain ⟨c'', xs, e'', es, rfl, rfl, hthird, hrest⟩ := hrest.cons_inv
  obtain ⟨rfl, rfl⟩ := hrest.nil_inv
  have he := Condition.bindings_eq_nil hfirst rfl
  have he' := Condition.bindings_eq_nil hsecond rfl
  obtain ⟨-, he''⟩ := capture_inv hthird rfl
  have hget : caps.get? 0 = some (.single c'') := by
    simp only [hcaps, hbindings, Derivation.bindingsEach, he, he', he'']
    rfl
  obtain rfl := eq_value_nil_of_absent hfirst.holds
  obtain rfl := eq_sym_of_literal hsecond.holds
  obtain rfl := eq_node_of_get? hget hstring
  exact ⟨ys, hchildren⟩

theorem children_of_textToDecimal {caps : Captures t} (hm : textToDecimal.match? n = some caps)
    (hstring : caps.node? 0 = some string) :
    ∃ rest, n.children = .node string :: .value (.sym "to_d") :: rest := by
  obtain ⟨d, hd, hcaps⟩ := textToDecimalCompiled.exists_derives hm
  obtain ⟨xs, ys, ds, hchildren, hds, hbindings⟩ := hd.frontKind_inv
  obtain ⟨c, xs, e, es, rfl, rfl, hfirst, hrest⟩ := hds.cons_inv
  obtain ⟨c', xs, e', es, rfl, rfl, hsecond, hrest⟩ := hrest.cons_inv
  obtain ⟨rfl, rfl⟩ := hrest.nil_inv
  obtain ⟨-, he⟩ := capture_inv hfirst rfl
  have he' := Condition.bindings_eq_nil hsecond rfl
  have hget : caps.get? 0 = some (.single c) := by
    simp only [hcaps, hbindings, Derivation.bindingsEach, he, he']
    rfl
  obtain rfl := eq_sym_of_literal hsecond.holds
  obtain rfl := eq_node_of_get? hget hstring
  exact ⟨ys, hchildren⟩

theorem plainNumber?_eq_some {text : String} (h : plainNumber? string = some text) :
    string.strValue? = some text ∧ ∃ p : PlainNumber, p.text = text.toList := by
  obtain ⟨hvalue, hplain⟩ := Option.filter_eq_some_iff.1 h
  exact ⟨hvalue, isPlainNumber_iff.1 hplain⟩

/-- The finding puts the text of a number, as the string has it, in the place of a string. -/
def IsUnquoted (n : Node t) (f : Finding) : Prop :=
  ∃ (string : Node t) (text : String) (edit : Edit), string.strValue? = some text ∧
    (∃ p : PlainNumber, p.text = text.toList) ∧ f.span = string.span ∧
    f.correction = some ⟨[edit]⟩ ∧ Unquotes n string text edit

theorem decimalVerdict_unquotes (n : Node t) :
    Verdict.AnswersIfRead n (IsUnquoted n) (decimalVerdict n) := by
  rw [decimalVerdict]
  split
  case h_1 string hstring =>
    obtain ⟨caps, hm, hstring⟩ := Option.bind_eq_some_iff.1 hstring
    obtain ⟨rest, hchildren⟩ := children_of_bigDecimalOfText hm hstring
    split
    case h_2 => exact .nothing
    next text htext =>
    obtain ⟨hvalue, hplain⟩ := plainNumber?_eq_some htext
    exact .found ⟨string, text, _, hvalue, hplain, rfl, rfl, .argument hchildren⟩
  split
  case h_2 => exact .nothing
  next string hstring =>
    obtain ⟨caps, hm, hstring⟩ := Option.bind_eq_some_iff.1 hstring
    obtain ⟨rest, hchildren⟩ := children_of_textToDecimal hm hstring
    split
    case h_2 => exact .nothing
    next text htext =>
    obtain ⟨hvalue, hplain⟩ := plainNumber?_eq_some htext
    refine Node.Reads.bind (.texts fun m hm => ?_) fun texts htexts => ?_
    · exact .through (Node.mem_childNodes_of_mem_arguments hm) (.self m)
    · exact Verdict.AnswersIfRead.found
        ⟨string, text, _, hvalue, hplain, rfl, rfl, .receiver hchildren htexts⟩

/-- **A number loses its quotes as it is written.**  At every node of every tree the rule has an answer,
unless a span there does not cut the text.  What it answers puts the text of a string where the string is,
or in a call in its place, and the text is that of a plain number.  It is a numeral for that number exactly

* if no zero stands in front of another digit of the whole part,
* or if there is no fraction and the number is below eight.

Without its sign an integer is read as its number exactly if it is a numeral for it and fits, and a fraction
is read as the double of its decimal digits. -/
theorem bigDecimalWithNumericArgument_number (context : RuleContext) (n : Node t) :
    (n.Reads (bigDecimalWithNumericArgument.evaluate context n).offenses fun os =>
      ∀ o ∈ os, ∃ string p edit, string.strValue? = some (String.ofList (PlainNumber.text p)) ∧
        o.span = string.span ∧ o.correction = some ⟨[edit]⟩ ∧
        Unquotes n string (String.ofList p.text) edit) ∧
    (∀ cs, isPlainNumber cs = true ↔ ∃ p : PlainNumber, p.text = cs) ∧
    ∀ p : PlainNumber,
      (Numeral p.text p.number ↔
        ¬ IsZeroLed p.whole ∨ p.fraction? = none ∧ placeValue 10 p.whole < 8) ∧
      (p.fraction? = none → (readInteger p.unsigned = some (placeValue 10 p.whole : Int) ↔
        placeValue 10 p.whole ≤ Number.maxInt64 ∧
          (¬ IsZeroLed p.whole ∨ placeValue 10 p.whole < 8))) ∧
      ∀ part, p.fraction? = some part → Ruby.Layout.readFloat p.unsigned = some
        (Number.Double.ofMagnitude false (Number.Double.ofScientific (placeValue 10 p.digits)
          (p.digits.dropWhile (· == '0')).length (0 - p.places))) := by
  refine ⟨?_, fun cs => isPlainNumber_iff, fun p =>
    ⟨p.numeral_text_iff, p.readInteger_unsigned_iff, fun part => p.readFloat_unsigned⟩⟩
  refine (offenses_of_answersIfRead rfl (decimalVerdict_unquotes n)).imp fun os hos o ho => ?_
  obtain ⟨f, ⟨string, text, edit, hvalue, ⟨p, hp⟩, hspan, hcorrection, hedit⟩, hspan', hcorrection'⟩ :=
    hos o ho
  have htext : String.ofList p.text = text := by rw [hp, String.ofList_toList]
  exact ⟨string, p, edit, htext ▸ hvalue, hspan'.trans hspan, hcorrection'.trans hcorrection, htext ▸ hedit⟩

/-! ## a zero in front -/

def zeroLedDecimal : SyntaxTree :=
  SyntaxTree.ofNode "BigDecimal('010')" .send ⟨0, 17⟩
    ⟨some ⟨0, 10⟩, none, some ⟨10, 11⟩, some ⟨16, 17⟩, none⟩ [
    .value .nil, .value (.sym "BigDecimal"),
    .node .str ⟨11, 16⟩ ⟨none, none, some ⟨11, 12⟩, some ⟨15, 16⟩, none⟩ [.value (.str "010")]]

/-- The ten in the string becomes a numeral for eight. -/
theorem zeroLedDecimal_number : zeroLedDecimal.WellFormed ∧
    ((bigDecimalWithNumericArgument.evaluate Config.standard.context
      zeroLedDecimal.rootNode).offenses.toOption.map fun os => os.map fun o => o.correction) =
      some [some ⟨[⟨⟨11, 16⟩, "010"⟩]⟩] ∧
    isPlainNumber ['0', '1', '0'] = true ∧ placeValue 10 ['0', '1', '0'] = 10 ∧
    Numeral ['0', '1', '0'] 8 ∧ ¬ Numeral ['0', '1', '0'] 10 ∧
    readInteger ['0', '1', '0'] = some 8 := by
  have hten : placeValue 10 ['0', '1', '0'] = 10 := by decide
  have hunits : placeValue 8 ['1', '0'] = 8 := by decide
  have hoctal : UnsignedNumeral ['0', '1', '0'] (placeValue 8 ['1', '0']) :=
    .octal (by decide) (by decide)
  have hdecimal : ¬ Numeral ['0', '1', '0'] (placeValue 10 ['0', '1', '0']) := by
    rw [numeral_iff_unsignedNumeral (by simp), unsignedNumeral_placeValue_iff (by decide) (by decide),
      hten]
    exact not_or.2 ⟨not_not_intro ⟨'1', ['0'], rfl⟩, by decide⟩
  rw [hten] at hdecimal
  rw [hunits] at hoctal
  exact ⟨by decide +kernel, by decide +kernel, by decide +kernel, hten, .plain (by exact_mod_cast hoctal),
    by exact_mod_cast hdecimal, by decide +kernel⟩

end

end RubyLint.Rule
