import RubyLint.Proofs.Literal.Misreading
import RubyLint.Proofs.Literal.Regexp

/-!
# Bodies that denote a blank

A blank can be written in a body as it stands, behind a backslash, or by its code, and lines can be broken
around it.  In a body without metacharacters there is no other way.

* `SpellsBlank`              these bodies; `SpellsBlank.readEscapes_eq` each is read as a blank;
* `Spells.eq_of_length`      a number has one spelling in decimal digits of each length;
* `Escape.of_allLiteral`     what an escape of a literal body can be;
* `readEscapes_eq_blank_iff`   no other literal body denotes a blank.
-/

namespace RubyLint.Literal

def brokenLines (n : Nat) : List Char := (List.replicate n ['\\', '\n']).flatten

def blankSpellings : List (List Char) := [[' '], "\\ ".toList, "\\x20".toList, "\\u0020".toList]

/-- The body is one of the spellings of a blank, with broken lines around it. -/
def SpellsBlank (body : List Char) : Prop :=
  ∃ m spelling n, spelling ∈ blankSpellings ∧ body = brokenLines m ++ spelling ++ brokenLines n

theorem brokenLines_succ (n : Nat) : brokenLines (n + 1) = '\\' :: '\n' :: brokenLines n := rfl

theorem readEscapes_brokenLines (n : Nat) (cs : List Char) :
    readEscapes (brokenLines n ++ cs) = readEscapes cs := by
  induction n with
  | zero => rfl
  | succ n ih =>
    rw [brokenLines_succ, List.cons_append, List.cons_append, readEscapes_escape, readEscape_newline]
    exact ih

section
variable {e c : Char} {cs body : List Char}

theorem readEscapes_spelling {spelling : List Char} (h : spelling ∈ blankSpellings) (cs : List Char) :
    readEscapes (spelling ++ cs) = ' ' :: readEscapes cs := by
  simp only [blankSpellings, List.mem_cons, List.not_mem_nil, or_false] at h
  rcases h with rfl | rfl | rfl | rfl
  · exact readEscapes_cons (by decide) cs
  · show readEscapes ('\\' :: ' ' :: cs) = _
    rw [readEscapes_escape]
    rfl
  · show readEscapes ('\\' :: 'x' :: '2' :: '0' :: cs) = _
    have hrun : hexRun 2 ('2' :: '0' :: cs) = ['2', '0'] := rfl
    rw [readEscapes_escape, readEscape_hex _ (by rw [hrun]; exact List.cons_ne_nil _ _), hrun]
    rfl
  · show readEscapes ('\\' :: 'u' :: '0' :: '0' :: '2' :: '0' :: cs) = _
    have hrun : hexRun 4 ('0' :: '0' :: '2' :: '0' :: cs) = ['0', '0', '2', '0'] := rfl
    rw [readEscapes_escape, readEscape_unicode _ (by rw [hrun]; rfl), hrun]
    rfl

theorem SpellsBlank.readEscapes_eq (h : SpellsBlank body) : readEscapes body = [' '] := by
  obtain ⟨m, spelling, n, hspelling, rfl⟩ := h
  have hbehind := readEscapes_brokenLines n []
  rw [List.append_nil, readEscapes_nil] at hbehind
  rw [List.append_assoc, readEscapes_brokenLines, readEscapes_spelling hspelling, hbehind]

end

/-! ### codes of a blank -/

section
variable {base k n : Nat} {c d : Char} {cs ds rest out body text : List Char}

theorem eq_of_digitIn (hc : Number.digitIn 16 c = some k) (hd : Number.digitIn 16 d = some k)
    (hdecimal : (Number.digitIn 10 d).isSome = true) : c = d := by
  obtain ⟨hc, -⟩ := digitIn_eq_some_iff_digitValue.1 hc
  obtain ⟨hd, -⟩ := digitIn_eq_some_iff_digitValue.1 hd
  obtain ⟨v, hv⟩ := Option.isSome_iff_exists.1 hdecimal
  obtain ⟨hv, hlt⟩ := digitIn_eq_some_iff_digitValue.1 hv
  obtain rfl := Option.some.inj (hd.symm.trans hv)
  have hc' := (digitIn_eq_some_iff (by decide)).1 (digitIn_eq_some_iff_digitValue.2 ⟨hc, hlt⟩)
  have hd' := (digitIn_eq_some_iff (by decide)).1 (digitIn_eq_some_iff_digitValue.2 ⟨hd, hlt⟩)
  have hsame : digitOf c = digitOf d := hc'.2.symm.trans hd'.2
  have hle := hc'.1.1
  have hle' := hd'.1.1
  unfold digitOf at hsame
  exact Char.toNat_inj.1 (by omega)

theorem Spells.snoc_inv (h : Spells base (cs ++ [c]) n) : Number.digitIn base c = some (n % base) ∧
    (cs = [] ∧ n / base = 0 ∨ Spells base cs (n / base)) := by
  generalize htext : cs ++ [c] = text at h
  cases h with
  | digit hd =>
    obtain ⟨rfl, htail⟩ := List.append_inj' (htext.trans (List.nil_append _).symm) rfl
    cases htail
    have hlt := Number.digitIn_lt hd
    rw [Nat.mod_eq_of_lt hlt]
    exact ⟨hd, .inl ⟨rfl, Nat.div_eq_of_lt hlt⟩⟩
  | @behind cs' c' n' d hs hd =>
    obtain ⟨rfl, htail⟩ := List.append_inj' htext rfl
    cases htail
    have hlt := Number.digitIn_lt hd
    have hpos : 0 < base := Nat.zero_lt_of_lt hlt
    have hmod : (n' * base + d) % base = d := by
      rw [Nat.add_comm, Nat.add_mul_mod_self_right, Nat.mod_eq_of_lt hlt]
    have hdiv : (n' * base + d) / base = n' := by
      rw [Nat.add_comm, Nat.add_mul_div_right _ _ hpos, Nat.div_eq_of_lt hlt, Nat.zero_add]
    rw [hmod, hdiv]
    exact ⟨hd, .inr hs⟩

/-- a number has one spelling in decimal digits of each length -/
theorem Spells.eq_of_length (h : Spells 16 cs n) (hds : Spells 16 ds n) (hlength : cs.length = ds.length)
    (hdecimal : ∀ d ∈ ds, (Number.digitIn 10 d).isSome = true) : cs = ds := by
  induction cs using List.reverseRecOn generalizing ds n with
  | nil => exact (List.length_eq_zero_iff.1 hlength.symm).symm
  | append_singleton cs c ih =>
    obtain rfl | ⟨front, d, rfl⟩ := List.eq_nil_or_concat' ds
    · exact absurd hlength (by simp)
    obtain ⟨hc, hfront⟩ := h.snoc_inv
    obtain ⟨hd, hfront'⟩ := hds.snoc_inv
    have hlength : cs.length = front.length := by simpa using hlength
    rw [eq_of_digitIn hc hd (hdecimal d (by simp))]
    rcases hfront with ⟨rfl, -⟩ | hfront
    · rw [List.length_eq_zero_iff.1 hlength.symm]
    rcases hfront' with ⟨rfl, -⟩ | hfront'
    · rw [List.length_eq_zero_iff.1 hlength]
    rw [ih hfront hfront' hlength fun d hd => hdecimal d (List.mem_append_left _ hd)]

theorem eq_of_spells_blank (h : Spells 16 cs ' '.toNat) :
    (cs.length ≤ 2 → cs = ['2', '0']) ∧ (cs.length = 4 → cs = ['0', '0', '2', '0']) := by
  have htwo : Spells 16 ['2', '0'] ' '.toNat := spells_iff.2 rfl
  have hfour : Spells 16 ['0', '0', '2', '0'] ' '.toNat := spells_iff.2 rfl
  refine ⟨fun hle => h.eq_of_length htwo ?_ (List.all_eq_true.1 (by decide)),
    fun heq => h.eq_of_length hfour heq (List.all_eq_true.1 (by decide))⟩
  -- one digit is too few
  have hlt : ' '.toNat < 16 ^ cs.length := Number.readDigits_lt (spells_iff.1 h)
  have hone : ¬ cs.length ≤ 1 := fun hone =>
    absurd (Nat.lt_of_lt_of_le hlt (Nat.pow_le_pow_right (by decide) hone)) (by decide)
  show cs.length = 2
  omega

/-! ### literal bodies -/

theorem AllLiteral.of_isLiteralRegexp (h : isLiteralRegexp ('/' :: cs ++ ['/']) = true) :
    AllLiteral (cs ++ ['/']) :=
  (AllLiteral.of_cons (by decide) (allLiteral_of_isLiteralRegexp h)).2

theorem AllLiteral.behind_code (h : AllLiteral (ds ++ rest ++ ['/'])) (hds : Spells 16 ds n) :
    AllLiteral (rest ++ ['/']) := by
  have hslash : '\\' ∉ ds := fun hmem =>
    absurd (isDigit_of_readDigits (spells_iff.1 hds) _ hmem) (by decide)
  unfold AllLiteral at h
  rw [List.append_assoc, regexpUnits_append hslash] at h
  exact fun u hu => h u (List.mem_append_right _ hu)

theorem Spells.of_isCharOf_blank (h : Spells 16 ds n) (hc : IsCharOf n ' ') :
    Spells 16 ds ' '.toNat := by
  obtain hn | ⟨-, hc⟩ := hc
  · rwa [hn]
  · exact absurd hc (by decide)

/-- An escape of a literal body is read as it is meant, and is a broken line or one character.  What stands
behind it is a literal body again. -/
theorem Escape.of_allLiteral (he : Escape cs out rest) (h : AllLiteral ('\\' :: (cs ++ ['/']))) :
    ¬ Misread cs ∧ AllLiteral (rest ++ ['/']) ∧ (cs = '\n' :: rest ∧ out = [] ∨
      ∃ c, out = [c] ∧ (c = ' ' → ∃ spelling ∈ blankSpellings, '\\' :: cs = spelling ++ rest)) := by
  obtain ⟨e, cs, rfl⟩ := he.exists_cons
  obtain ⟨hunit, hbehind⟩ := AllLiteral.of_escape h
  have hdigit : isDigit e = false := (Bool.or_eq_false_iff.1 (meaningfulEscapes_of_isLiteral hunit)).1
  have hbrace : ∀ body, cs ≠ '{' :: body := by
    rintro body rfl
    exact hbehind.head?_ne rfl
  refine ⟨not_misread hdigit fun body _ => hbrace body, ?_⟩
  generalize htext : e :: cs = text at he
  cases he with
  | @itself e' =>
    cases htext
    exact ⟨hbehind, .inr ⟨e, rfl, fun he => ⟨['\\', ' '], by decide, by rw [he]; rfl⟩⟩⟩
  | meaning hmeaning =>
    cases hmeaning with
    | @letter _ c _ hletter =>
      cases htext
      refine ⟨hbehind, .inr ⟨c, rfl, ?_⟩⟩
      rintro rfl
      rw [mem_letters_iff] at hletter
      have hs : e = 's' := by
        unfold simpleEscape? at hletter
        split at hletter <;> cases hletter
        rfl
      rw [hs] at hunit
      cases hunit
    | newline =>
      cases htext
      exact ⟨hbehind, .inl ⟨rfl, rfl⟩⟩
    | @octal ds _ _ _ hrun =>
      obtain ⟨d, ds, rfl⟩ := List.exists_cons_of_ne_nil hrun.ne_nil
      cases htext
      rw [isDigit_eq, isSome_digitIn_eight (hrun.isDigit e List.mem_cons_self)] at hdigit
      cases hdigit
    | @hex ds _ _ c hrun hn hc =>
      cases htext
      refine ⟨hbehind.behind_code hn, .inr ⟨c, rfl, ?_⟩⟩
      rintro rfl
      obtain rfl := (eq_of_spells_blank (hn.of_isCharOf_blank hc)).1 hrun.length_le
      exact ⟨"\\x20".toList, by decide, rfl⟩
    | @unicode ds _ _ c hlength hn hc =>
      cases htext
      refine ⟨hbehind.behind_code hn, .inr ⟨c, rfl, ?_⟩⟩
      rintro rfl
      obtain rfl := (eq_of_spells_blank (hn.of_isCharOf_blank hc)).2 hlength
      exact ⟨"\\u0020".toList, by decide, rfl⟩
    | codes =>
      cases htext
      exact absurd rfl (hbrace _)
    | openCodes =>
      cases htext
      exact absurd rfl (hbrace _)

theorem HasEscape.not_misread {escape : List Char} (h : HasEscape body escape)
    (hbody : AllLiteral (body ++ ['/'])) : ¬ Misread escape := by
  induction h with
  | @here e cs =>
    have hescape : Escape (e :: cs) (escapeOf e cs).1 (escapeOf e cs).2 := escape_iff.2 rfl
    exact (hescape.of_allLiteral hbody).1
  | plain hc _ ih => exact ih (hbody.of_cons hc).2
  | behind he _ ih => exact ih (he.of_allLiteral hbody).2.1

theorem Denotes.blank (h : Denotes body text) (hbody : AllLiteral (body ++ ['/'])) :
    (text = [] → ∃ n, body = brokenLines n) ∧ (text = [' '] → SpellsBlank body) := by
  induction h with
  | nil => exact ⟨fun _ => ⟨0, rfl⟩, fun h => (nomatch h)⟩
  | lone => exact ⟨fun h => (nomatch h), fun h => absurd h (by decide)⟩
  | plain hc _ ih =>
    refine ⟨fun h => (nomatch h), fun h => ?_⟩
    obtain ⟨rfl, htext⟩ := List.cons.inj h
    obtain ⟨n, rfl⟩ := (ih (hbody.of_cons hc).2).1 htext
    exact ⟨0, [' '], n, by decide, rfl⟩
  | escape he _ ih =>
    obtain ⟨-, hrest, ⟨rfl, rfl⟩ | ⟨c, rfl, hspelling⟩⟩ := he.of_allLiteral hbody
    · refine ⟨fun h => ?_, fun h => ?_⟩
      · obtain ⟨n, rfl⟩ := (ih hrest).1 h
        exact ⟨n + 1, rfl⟩
      · obtain ⟨m, spelling, n, hspelling, rfl⟩ := (ih hrest).2 h
        exact ⟨m + 1, spelling, n, hspelling, rfl⟩
    · refine ⟨fun h => (nomatch h), fun h => ?_⟩
      obtain ⟨rfl, htext⟩ := List.cons.inj h
      obtain ⟨spelling, hmem, heq⟩ := hspelling rfl
      obtain ⟨n, rfl⟩ := (ih hrest).1 htext
      exact ⟨0, spelling, n, hmem, heq⟩

/-- a literal body denotes a blank only if it is a spelling of one -/
theorem readEscapes_eq_blank_iff (hbody : AllLiteral (body ++ ['/'])) :
    readEscapes body = [' '] ↔ SpellsBlank body := by
  refine ⟨fun h => ?_, SpellsBlank.readEscapes_eq⟩
  obtain ⟨text, htext⟩ := exists_denotes body
  rw [htext.readEscapes_eq_iff.2 fun escape hescape => hescape.not_misread hbody] at h
  exact (htext.blank hbody).2 h

theorem all_regexpUnits_brokenLines (n : Nat) (cs : List Char) :
    (regexpUnits (brokenLines n ++ cs)).all RegexpUnit.isLiteral =
      (regexpUnits cs).all RegexpUnit.isLiteral := by
  induction n with
  | zero => rfl
  | succ n ih =>
    rw [brokenLines_succ, List.cons_append, List.cons_append, regexpUnits, List.all_cons, ih]
    rfl

theorem SpellsBlank.isLiteralRegexp (h : SpellsBlank body) :
    isLiteralRegexp ('/' :: body ++ ['/']) = true := by
  obtain ⟨m, spelling, n, hspelling, rfl⟩ := h
  have hend : ∀ n, (regexpUnits (brokenLines n ++ ['/'])).all RegexpUnit.isLiteral = true := fun n =>
    all_regexpUnits_brokenLines n ['/']
  have hbody : (regexpUnits (spelling ++ (brokenLines n ++ ['/']))).all RegexpUnit.isLiteral = true := by
    simp only [blankSpellings, List.mem_cons, List.not_mem_nil, or_false] at hspelling
    rcases hspelling with rfl | rfl | rfl | rfl <;> exact hend n
  show (RegexpUnit.isLiteral (.plain '/') &&
    (regexpUnits (brokenLines m ++ spelling ++ brokenLines n ++ ['/'])).all RegexpUnit.isLiteral) = true
  rw [List.append_assoc, List.append_assoc, all_regexpUnits_brokenLines, hbody]
  rfl

end

end RubyLint.Literal
