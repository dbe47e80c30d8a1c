import RubyLint.Proofs.Literal.Escapes
import RubyLint.Ruby.Layout.Literal

/-!
# A literal denotes the text it is written for

Writing a text in quotes and reading the literal back gives the text.  Reading goes the way of the
reader of Ruby (`Ruby.stringValue`): the first character tells the delimiters, and what stands
between them is read with all escapes, or with the two that single quotes know.

* `bare`                  the characters of a body that no backslash escapes;
* `Encloses`              a body ends at its closing quote and not before;
* `IsConstant`            nothing in a body is an interpolation;
* `readEscapes_escaped`, `exists_bare_escaped`  what is written for a character is read back as that
                          character, and leaves what stands behind it as it is;
* `stringValue_of_written`  the two literals of a text.
-/

namespace RubyLint.Literal

/-! ## characters that are not escaped -/

/-- the characters of a body that no backslash escapes, each with the one behind it -/
def bare : List Char → List (Char × Option Char)
  | [] => []
  | '\\' :: _ :: cs => bare cs
  | c :: cs => (c, cs.head?) :: bare cs

/-- the body ends at the closing quote and not before -/
structure Encloses (quote : Char) (body : List Char) : Prop where
  /-- no quote stands in the body without a backslash that escapes it -/
  not_quote : ∀ x ∈ bare body, x.1 ≠ quote
  /-- the quote behind the body is not escaped -/
  closes : (quote, none) ∈ bare (body ++ [quote])

/-- no number sign that is not escaped opens an interpolation -/
def IsConstant (body : List Char) : Prop :=
  ∀ x ∈ bare body, x.1 = '#' → x.2.any opensInterpolation = false

theorem bare_escape (e : Char) (cs : List Char) : bare ('\\' :: e :: cs) = bare cs := by
  rw [bare]

theorem bare_cons {c : Char} (hc : c ≠ '\\') (cs : List Char) :
    bare (c :: cs) = (c, cs.head?) :: bare cs := by
  rw [bare]
  exact fun _ _ h => absurd h hc

/-- text without backslashes is bare, and what stands behind it is not escaped by it -/
theorem exists_bare_append {ds : List Char} (hb : '\\' ∉ ds) (cs : List Char) :
    ∃ front, bare (ds ++ cs) = front ++ bare cs ∧ ∀ x ∈ front, x.1 ∈ ds := by
  induction ds with
  | nil => exact ⟨[], rfl, fun x hx => absurd hx List.not_mem_nil⟩
  | cons d ds ih =>
    have hne : d ≠ '\\' := fun h => hb (h ▸ List.mem_cons_self)
    obtain ⟨front, hfront, hmem⟩ := ih fun h => hb (List.mem_cons_of_mem _ h)
    refine ⟨(d, (ds ++ cs).head?) :: front, ?_, ?_⟩
    · rw [List.cons_append, bare_cons hne, hfront]
      rfl
    · intro x hx
      rcases List.mem_cons.1 hx with rfl | hx
      · exact List.mem_cons_self
      · exact List.mem_cons_of_mem _ (hmem x hx)

/-! ## the codes that are written -/

theorem upperHex4_spec {c : Char} (h : isControl c = true) :
    (upperHex4 c.toNat).length = 4 ∧ (upperHex4 c.toNat).all isHexDigit = true ∧
      readCode 16 (upperHex4 c.toNat) = some c.toNat := by
  have hall : ∀ n < 0xA0, (upperHex4 n).length = 4 ∧ (upperHex4 n).all isHexDigit = true ∧
      readCode 16 (upperHex4 n) = some n := by decide +kernel
  refine hall c.toNat ?_
  unfold isControl at h
  rw [Bool.or_eq_true, Bool.and_eq_true, decide_eq_true_eq, decide_eq_true_eq,
    decide_eq_true_eq] at h
  omega

theorem readEscape_upperHex4 {c : Char} (h : isControl c = true) (cs : List Char) :
    readEscape 'u' (upperHex4 c.toNat ++ cs) = ([c], 4) := by
  obtain ⟨hlength, hhex, hcode⟩ := upperHex4_spec h
  have hrun : hexRun 4 (upperHex4 c.toNat ++ cs) = upperHex4 c.toNat := by
    rw [← hlength]
    exact hexRun_append hhex cs
  rw [readEscape_unicode _ (by rw [hrun, hlength]), hrun, hcode, charOfCode_toNat]

/-- what is written with a letter behind a backslash is read by that letter -/
theorem readEscape_escapeLetter {c e : Char} (h : escapeLetter? c = some e) (cs : List Char) :
    readEscape e cs = ([c], 0) := by
  unfold escapeLetter? at h
  split at h <;> cases h <;> rfl

/-! ## double quotes -/

theorem escaped_cases (c : Char) (rest : List Char) :
    (∃ e, escapeLetter? c = some e ∧ escaped c rest = ['\\', e]) ∨
    (c = '#' ∧ escaped c rest = ['\\', '#']) ∨
    (c = '\x7f' ∧ escaped c rest = ['\\', 'x', '7', 'F']) ∨
    (isControl c = true ∧ escaped c rest = '\\' :: 'u' :: upperHex4 c.toNat) ∨
    (c ≠ '\\' ∧ c ≠ '\x22' ∧ escaped c rest = [c] ∧
      (c = '#' → rest.head?.any opensInterpolation = false)) := by
  unfold escaped
  cases he : escapeLetter? c with
  | some e => exact .inl ⟨e, rfl, rfl⟩
  | none =>
    have hslash : c ≠ '\\' := by rintro rfl; cases he
    have hquote : c ≠ '\x22' := by rintro rfl; cases he
    by_cases hsharp : c = '#'
    · subst hsharp
      cases hopens : rest.head?.any opensInterpolation with
      | true => exact .inr (.inl ⟨rfl, rfl⟩)
      | false => exact .inr (.inr (.inr (.inr ⟨hslash, hquote, rfl, fun _ => rfl⟩)))
    · rw [if_neg hsharp]
      by_cases hdelete : c = '\x7f'
      · rw [if_pos hdelete]
        exact .inr (.inr (.inl ⟨hdelete, rfl⟩))
      · rw [if_neg hdelete]
        cases hcontrol : isControl c with
        | true => exact .inr (.inr (.inr (.inl ⟨rfl, rfl⟩)))
        | false => exact .inr (.inr (.inr (.inr ⟨hslash, hquote, rfl, fun h => absurd h hsharp⟩)))

/-- a character is read back, whatever stands behind it -/
theorem readEscapes_escaped (c : Char) (rest cs : List Char) :
    readEscapes (escaped c rest ++ cs) = c :: readEscapes cs := by
  rcases escaped_cases c rest with
    ⟨e, he, h⟩ | ⟨rfl, h⟩ | ⟨rfl, h⟩ | ⟨hc, h⟩ | ⟨hslash, -, h, -⟩
  · rw [h]
    show readEscapes ('\\' :: e :: cs) = _
    rw [readEscapes_escape, readEscape_escapeLetter he]
    rfl
  · rw [h]
    show readEscapes ('\\' :: '#' :: cs) = _
    rw [readEscapes_escape]
    rfl
  · rw [h]
    show readEscapes ('\\' :: 'x' :: ('7' :: 'F' :: cs)) = _
    have hdigits : ['7', 'F'].all isHexDigit = true := rfl
    have hrun : hexRun 2 ('7' :: 'F' :: cs) = ['7', 'F'] := hexRun_append hdigits cs
    rw [readEscapes_escape, readEscape_hex _ (by rw [hrun]; exact List.cons_ne_nil _ _), hrun]
    rfl
  · rw [h]
    show readEscapes ('\\' :: 'u' :: (upperHex4 c.toNat ++ cs)) = _
    rw [readEscapes_escape, readEscape_upperHex4 hc]
    show [c] ++ readEscapes ((upperHex4 c.toNat ++ cs).drop 4) = _
    rw [← (upperHex4_spec hc).1, List.drop_left]
    rfl
  · rw [h]
    exact readEscapes_cons hslash cs

theorem readEscapes_escapedBody (v : List Char) : readEscapes (escapedBody v) = v := by
  induction v with
  | nil => exact readEscapes_nil
  | cons c v ih => rw [escapedBody, readEscapes_escaped, ih]

/-- of what is written for a character, nothing ends the literal or opens an interpolation, if what
stands behind it opens one only where the text does -/
theorem exists_bare_escaped (c : Char) (rest cs : List Char)
    (hcs : cs.head?.any opensInterpolation = true → rest.head?.any opensInterpolation = true) :
    ∃ front, bare (escaped c rest ++ cs) = front ++ bare cs ∧
      ∀ x ∈ front, x.1 ≠ '\x22' ∧ (x.1 = '#' → x.2.any opensInterpolation = false) := by
  have hcode : ∀ ds : List Char, ds.all isHexDigit = true →
      ∃ front, bare (ds ++ cs) = front ++ bare cs ∧
        ∀ x ∈ front, x.1 ≠ '\x22' ∧ (x.1 = '#' → x.2.any opensInterpolation = false) := by
    intro ds hds
    have hmem : ∀ d ∈ ds, isHexDigit d = true := List.all_eq_true.1 hds
    obtain ⟨front, hfront, hin⟩ :=
      exists_bare_append (fun h : '\\' ∈ ds => absurd (hmem _ h) (by decide)) cs
    refine ⟨front, hfront, fun x hx => ⟨fun hq => ?_, fun hs => ?_⟩⟩
    · exact absurd (hmem _ (hq ▸ hin x hx)) (by decide)
    · exact absurd (hmem _ (hs ▸ hin x hx)) (by decide)
  rcases escaped_cases c rest with
    ⟨e, he, h⟩ | ⟨rfl, h⟩ | ⟨rfl, h⟩ | ⟨hc, h⟩ | ⟨hslash, hquote, h, hopens⟩
  · rw [h]
    exact ⟨[], bare_escape e cs, fun x hx => absurd hx List.not_mem_nil⟩
  · rw [h]
    exact ⟨[], bare_escape '#' cs, fun x hx => absurd hx List.not_mem_nil⟩
  · rw [h]
    show ∃ front, bare ('\\' :: 'x' :: (['7', 'F'] ++ cs)) = front ++ bare cs ∧ _
    rw [bare_escape]
    exact hcode ['7', 'F'] rfl
  · rw [h]
    show ∃ front, bare ('\\' :: 'u' :: (upperHex4 c.toNat ++ cs)) = front ++ bare cs ∧ _
    rw [bare_escape]
    exact hcode _ (upperHex4_spec hc).2.1
  · rw [h]
    refine ⟨[(c, cs.head?)], bare_cons hslash cs, fun x hx => ?_⟩
    obtain rfl := List.mem_singleton.1 hx
    refine ⟨hquote, fun hsharp => ?_⟩
    have hrest := hopens hsharp
    cases hhead : cs.head?.any opensInterpolation with
    | true => rw [hcs hhead] at hrest; cases hrest
    | false => rfl

/-- what is written for a text opens with a sign of interpolation only if the text does -/
theorem head?_escapedBody_append {v cs : List Char}
    (hcs : cs.head?.any opensInterpolation = false)
    (h : (escapedBody v ++ cs).head?.any opensInterpolation = true) :
    v.head?.any opensInterpolation = true := by
  cases v with
  | nil => rw [show escapedBody [] ++ cs = cs from rfl, hcs] at h; cases h
  | cons c v =>
    rw [escapedBody] at h
    have hslash : opensInterpolation '\\' ≠ true := by decide
    rcases escaped_cases c v with ⟨e, -, hw⟩ | ⟨-, hw⟩ | ⟨-, hw⟩ | ⟨-, hw⟩ | ⟨-, -, hw, -⟩
    · rw [hw] at h
      exact absurd h hslash
    · rw [hw] at h
      exact absurd h hslash
    · rw [hw] at h
      exact absurd h hslash
    · rw [hw] at h
      exact absurd h hslash
    · rw [hw] at h
      exact h

theorem exists_bare_escapedBody (v cs : List Char)
    (hcs : cs.head?.any opensInterpolation = false) :
    ∃ front, bare (escapedBody v ++ cs) = front ++ bare cs ∧
      ∀ x ∈ front, x.1 ≠ '\x22' ∧ (x.1 = '#' → x.2.any opensInterpolation = false) := by
  induction v with
  | nil => exact ⟨[], rfl, fun x hx => absurd hx List.not_mem_nil⟩
  | cons c v ih =>
    obtain ⟨back, hback, hall⟩ := ih
    obtain ⟨front, hfront, hall'⟩ :=
      exists_bare_escaped c v (escapedBody v ++ cs) (head?_escapedBody_append hcs)
    refine ⟨front ++ back, ?_, fun x hx => ?_⟩
    · rw [escapedBody, List.append_assoc, hfront, hback, List.append_assoc]
    · rcases List.mem_append.1 hx with hx | hx
      · exact hall' x hx
      · exact hall x hx

theorem encloses_escapedBody (v : List Char) : Encloses '\x22' (escapedBody v) := by
  constructor
  · obtain ⟨front, hfront, hall⟩ := exists_bare_escapedBody v [] rfl
    rw [List.append_nil] at hfront
    intro x hx
    rw [hfront, bare, List.append_nil] at hx
    exact (hall x hx).1
  · obtain ⟨front, hfront, -⟩ := exists_bare_escapedBody v ['\x22'] rfl
    rw [hfront]
    exact List.mem_append_right _ List.mem_cons_self

theorem isConstant_escapedBody (v : List Char) : IsConstant (escapedBody v) := by
  obtain ⟨front, hfront, hall⟩ := exists_bare_escapedBody v [] rfl
  rw [List.append_nil] at hfront
  intro x hx
  rw [hfront, bare, List.append_nil] at hx
  exact (hall x hx).2

/-! ## single quotes -/

theorem readSingleQuoted_cons {c : Char} (hc : c ≠ '\\') (cs : List Char) :
    readSingleQuoted (c :: cs) = c :: readSingleQuoted cs := by
  rw [readSingleQuoted]
  · exact fun _ h => absurd h hc
  · exact fun _ h => absurd h hc

theorem singleQuotedBody_cons (c : Char) (cs : List Char) : singleQuotedBody (c :: cs) =
    (if c = '\\' then ['\\', '\\'] else [c]) ++ singleQuotedBody cs := rfl

theorem readSingleQuoted_singleQuotedBody (v : List Char) :
    readSingleQuoted (singleQuotedBody v) = v := by
  induction v with
  | nil => rfl
  | cons c v ih =>
    rw [singleQuotedBody_cons]
    by_cases hc : c = '\\'
    · rw [if_pos hc, hc]
      show '\\' :: readSingleQuoted (singleQuotedBody v) = _
      rw [ih]
    · rw [if_neg hc]
      show readSingleQuoted (c :: singleQuotedBody v) = _
      rw [readSingleQuoted_cons hc, ih]

/-- the body has no quote that the text does not have, and its backslashes go in pairs -/
theorem exists_bare_singleQuotedBody (v cs : List Char) :
    ∃ front, bare (singleQuotedBody v ++ cs) = front ++ bare cs ∧ ∀ x ∈ front, x.1 ∈ v := by
  induction v with
  | nil => exact ⟨[], rfl, fun x hx => absurd hx List.not_mem_nil⟩
  | cons c v ih =>
    obtain ⟨front, hfront, hall⟩ := ih
    have hlater : ∀ x ∈ front, x.1 ∈ c :: v := fun x hx => List.mem_cons_of_mem _ (hall x hx)
    rw [singleQuotedBody_cons, List.append_assoc]
    by_cases hc : c = '\\'
    · rw [if_pos hc]
      show ∃ front, bare ('\\' :: '\\' :: (singleQuotedBody v ++ cs)) = _ ∧ _
      rw [bare_escape]
      exact ⟨front, hfront, hlater⟩
    · rw [if_neg hc]
      show ∃ front, bare (c :: (singleQuotedBody v ++ cs)) = _ ∧ _
      rw [bare_cons hc, hfront]
      exact ⟨_ :: front, rfl, List.forall_mem_cons.2 ⟨List.mem_cons_self, hlater⟩⟩

theorem encloses_singleQuotedBody {v : List Char} (hv : '\x27' ∉ v) :
    Encloses '\x27' (singleQuotedBody v) := by
  constructor
  · obtain ⟨front, hfront, hall⟩ := exists_bare_singleQuotedBody v []
    rw [List.append_nil] at hfront
    intro x hx hquote
    rw [hfront, bare, List.append_nil] at hx
    exact hv (hquote ▸ hall x hx)
  · obtain ⟨front, hfront, -⟩ := exists_bare_singleQuotedBody v ['\x27']
    rw [hfront]
    exact List.mem_append_right _ List.mem_cons_self

/-! ## literals -/

open Ruby (stringValue)

/-- the delimiters of a literal in quotes are its first and its last character -/
theorem inner_quoted (quote : Char) (body : List Char) :
    Ruby.inner 1 1 (quote :: body ++ [quote]) = body := by
  unfold Ruby.inner
  show (body ++ [quote]).take ((quote :: body ++ [quote]).length - 1 - 1) = body
  rw [List.length_append, List.length_cons, List.length_singleton, Nat.add_sub_cancel,
    Nat.add_sub_cancel, List.take_left]

theorem two_le_byteLength (quote : Char) (body : List Char) :
    2 ≤ Text.byteLength (quote :: body ++ [quote]) := by
  have hpos := quote.utf8Size_pos
  rw [Text.byteLength_append, Text.byteLength_cons, Text.byteLength_cons]
  omega

theorem stringValue_quoted {quote : Char} {isDouble : Bool} (body : List Char)
    (hq : quote = '\x22' ∧ isDouble = true ∨ quote = '\x27' ∧ isDouble = false) :
    stringValue (quote :: body ++ [quote]) =
      if isDouble then readEscapes body else readSingleQuoted body := by
  have hle := two_le_byteLength quote body
  have hd : Ruby.stringDelimiters? (quote :: body ++ [quote]) = some ⟨1, 1, isDouble⟩ := by
    unfold Ruby.stringDelimiters?
    rcases hq with ⟨rfl, rfl⟩ | ⟨rfl, rfl⟩
    · exact Option.filter_eq_some_iff.2 ⟨rfl, decide_eq_true hle⟩
    · exact Option.filter_eq_some_iff.2 ⟨rfl, decide_eq_true hle⟩
  unfold stringValue
  rw [hd]
  show (if isDouble then readEscapes (Ruby.inner 1 1 _) else readSingleQuoted (Ruby.inner 1 1 _)) = _
  rw [inner_quoted]

/-- a literal in single quotes is written for texts without such a quote only -/
theorem singleOrDouble_cases (v : List Char) :
    singleOrDouble v = doubleQuoted v ∨
      ('\x27' ∉ v ∧ singleOrDouble v = '\x27' :: singleQuotedBody v ++ ['\x27']) := by
  unfold singleOrDouble
  cases hneeds : needsDoubleQuotes v with
  | true => exact .inl rfl
  | false =>
    refine .inr ⟨fun hmem => ?_, rfl⟩
    unfold needsDoubleQuotes at hneeds
    rw [List.contains_iff_mem.2 hmem] at hneeds
    cases hneeds

theorem stringValue_doubleQuoted (v : List Char) : stringValue (doubleQuoted v) = v := by
  unfold doubleQuoted
  rw [stringValue_quoted _ (.inl ⟨rfl, rfl⟩), if_pos rfl, readEscapes_escapedBody]

theorem stringValue_singleOrDouble (v : List Char) : stringValue (singleOrDouble v) = v := by
  rcases singleOrDouble_cases v with h | ⟨-, h⟩
  · rw [h, stringValue_doubleQuoted]
  · rw [h, stringValue_quoted _ (.inr ⟨rfl, rfl⟩), if_neg Bool.false_ne_true,
      readSingleQuoted_singleQuotedBody]

/-- **Both literals of a text denote the text.**  They end where they should, and the one in double
quotes has no interpolation. -/
theorem stringValue_of_written (v : List Char) :
    (stringValue (singleOrDouble v) = v ∧ stringValue (doubleQuoted v) = v) ∧
    (∃ quote body, singleOrDouble v = quote :: body ++ [quote] ∧ Encloses quote body ∧
      (quote = '\x27' ∨ quote = '\x22' ∧ IsConstant body)) ∧
    ∃ body, doubleQuoted v = '\x22' :: body ++ ['\x22'] ∧ Encloses '\x22' body ∧
      IsConstant body := by
  have hbody : ∃ body, doubleQuoted v = '\x22' :: body ++ ['\x22'] ∧ Encloses '\x22' body ∧
      IsConstant body :=
    ⟨escapedBody v, rfl, encloses_escapedBody v, isConstant_escapedBody v⟩
  refine ⟨⟨stringValue_singleOrDouble v, stringValue_doubleQuoted v⟩, ?_, hbody⟩
  rcases singleOrDouble_cases v with h | ⟨hv, h⟩
  · rw [h]
    obtain ⟨body, hw, he, hc⟩ := hbody
    exact ⟨'\x22', body, hw, he, .inr ⟨rfl, hc⟩⟩
  · rw [h]
    exact ⟨'\x27', singleQuotedBody v, rfl, encloses_singleQuotedBody hv, .inl rfl⟩

end RubyLint.Literal
