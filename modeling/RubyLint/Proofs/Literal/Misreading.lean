import Mathlib.Logic.ExistsUnique
import RubyLint.Proofs.Literal.Denotation

/-!
# Escapes that are misread

The reader of bodies finds what they denote but for two kinds of escapes.  Behind a digit it goes on with
decimal digits where only octal ones belong to the code, and between braces it reads a number with a plus
in front, which is none.

* `Misread`, `HasEscape`   these escapes, and the escapes of a body;
* `readEscapes_of_not_misread`, `readEscapes_of_misread`   what is read from one escape;
* `denotes_readEscapes_iff`   the reader finds the text of a body exactly if it misreads no escape in it;
* `denotes_octal_then_eight`  it does not, where an eight stands behind an octal digit.
-/

namespace RubyLint.Literal

/-! ## escapes that are misread -/

/-- Escapes, from the character behind the backslash on, that the reader takes for something else. -/
inductive Misread : List Char → Prop
  /-- of up to three decimal digits, one is not octal -/
  | digits {ds rest : List Char} {c : Char} (hrun : LongestRun 10 3 ds rest) (hmem : c ∈ ds)
      (hc : (Number.digitIn 8 c).isSome = false) : Misread (ds ++ rest)
  /-- between braces, a plus stands in front of the number of a character -/
  | plus {body word : List Char} {words : List (List Char)} {c : Char}
      (hwords : Words (body.takeWhile (· != '}')) words) (hmem : '+' :: word ∈ words)
      (hn : Spells 16 word c.toNat) (hc : c ≠ '\uFFFD') : Misread ('u' :: '{' :: body)

/-- an escape of the body, from the character behind its backslash on -/
inductive HasEscape : List Char → List Char → Prop
  | here {e : Char} {cs : List Char} : HasEscape ('\\' :: e :: cs) (e :: cs)
  | plain {c : Char} {cs escape : List Char} (hc : c ≠ '\\') (h : HasEscape cs escape) :
      HasEscape (c :: cs) escape
  | behind {cs out rest escape : List Char} (he : Escape cs out rest) (h : HasEscape rest escape) :
      HasEscape ('\\' :: cs) escape

section
variable {e c : Char} {cs body text : List Char}

theorem isDigit_eq (c : Char) : isDigit c = (Number.digitIn 10 c).isSome := by
  rw [Bool.eq_iff_iff, isSome_digitIn_iff (by decide), ← le_nine_iff]
  unfold isDigit
  rw [Bool.and_eq_true, decide_eq_true_eq, decide_eq_true_eq]

theorem readEscape_digits (h : isDigit e = true) (cs : List Char) : readEscape e cs =
    ([charOfCode (readCode 8 (digitRun 10 3 (e :: cs)))], (digitRun 10 3 (e :: cs)).length - 1) := by
  have hsimple : simpleEscape? e = none := by
    cases hs : simpleEscape? e with
    | none => rfl
    | some c =>
      rw [isDigit_eq, digitIn_of_simpleEscape? hs] at h
      cases h
  have hnewline : e ≠ '\n' := by
    rintro rfl
    cases h
  have hrun : digitRun 10 3 (e :: cs) = e :: (cs.take 2).takeWhile isDigit := by
    rw [isDigit_eq] at h
    unfold digitRun
    rw [List.take_succ_cons, List.takeWhile_cons_of_pos (p := fun c => (Number.digitIn 10 c).isSome) h]
    exact congrArg (fun p => e :: (cs.take 2).takeWhile p) (funext isDigit_eq).symm
  unfold readEscape
  rw [hsimple]
  dsimp only
  rw [if_neg hnewline, h, if_pos rfl, hrun]

theorem readEscape_codes (body : List Char) : readEscape 'u' ('{' :: body) =
    ((Text.words (body.takeWhile (· != '}'))).map fun word => charOfCode (readCode 16 word),
      (body.takeWhile (· != '}')).length + 2) := rfl

theorem readEscape_hex_none (h : hexRun 2 cs = []) : readEscape 'x' cs = (['x'], 0) := by
  unfold readEscape
  rw [show simpleEscape? 'x' = none from rfl]
  dsimp only
  rw [if_neg (by decide), if_neg (by decide), if_pos rfl, h]

theorem readEscape_unicode_none (hbrace : ∀ body, cs ≠ '{' :: body) (h : (hexRun 4 cs).length ≠ 4) :
    readEscape 'u' cs = ('u' :: hexRun 4 cs, (hexRun 4 cs).length) := by
  unfold readEscape
  rw [show simpleEscape? 'u' = none from rfl]
  dsimp only
  rw [if_neg (by decide), if_neg (by decide), if_neg (by decide), if_pos rfl]
  split
  · next body => exact absurd rfl (hbrace body)
  · exact if_neg h

theorem readEscapes_append {ds : List Char} (h : '\\' ∉ ds) (cs : List Char) :
    readEscapes (ds ++ cs) = ds ++ readEscapes cs := by
  induction ds with
  | nil => rfl
  | cons d ds ih =>
    have hd : d ≠ '\\' := fun heq => h (heq ▸ List.mem_cons_self)
    rw [List.cons_append, readEscapes_cons hd, ih fun hmem => h (List.mem_cons_of_mem _ hmem)]
    rfl

end

/-! ### digits -/

section
variable {e : Char} {cs ds : List Char}

theorem digitRun_eight (h : ∀ c ∈ digitRun 10 3 cs, (Number.digitIn 8 c).isSome = true) :
    digitRun 8 3 cs = digitRun 10 3 cs := by
  by_cases hne : digitRun 10 3 cs = []
  · rw [hne, digitRun_eq_nil_iff (by decide)]
    intro c hc
    cases hd : (Number.digitIn 8 c).isSome with
    | false => rfl
    | true => exact absurd ((digitRun_eq_nil_iff (by decide)).1 hne c hc) (by
        rw [isSome_digitIn_eight hd]; exact Bool.noConfusion)
  · have hten : LongestRun 10 3 (digitRun 10 3 cs) (cs.drop (digitRun 10 3 cs).length) :=
      longestRun_iff.2 ⟨hne, by rw [digitRun_append_drop]⟩
    have height : LongestRun 8 3 (digitRun 10 3 cs) (cs.drop (digitRun 10 3 cs).length) := by
      refine ⟨h, hne, hten.length_le, hten.longest.imp_right fun hend c hc => ?_⟩
      cases hd : (Number.digitIn 8 c).isSome with
      | false => rfl
      | true =>
        rw [← hend c hc]
        exact (isSome_digitIn_eight hd).symm
    have hrun := (longestRun_iff.1 height).2
    rwa [digitRun_append_drop] at hrun

theorem misread_digits_iff (h : isDigit e = true) : Misread (e :: cs) ↔
    ∃ c ∈ digitRun 10 3 (e :: cs), (Number.digitIn 8 c).isSome = false := by
  constructor
  · generalize htext : e :: cs = text
    intro hmisread
    cases hmisread with
    | digits hrun hmem hc => exact ⟨_, (longestRun_iff.1 hrun).2.symm ▸ hmem, hc⟩
    | plus =>
      cases htext
      cases h
  · rintro ⟨c, hmem, hc⟩
    have hrun : LongestRun 10 3 (digitRun 10 3 (e :: cs))
        ((e :: cs).drop (digitRun 10 3 (e :: cs)).length) :=
      longestRun_iff.2 ⟨List.ne_nil_of_mem hmem, by rw [digitRun_append_drop]⟩
    have hmisread := Misread.digits hrun hmem hc
    rwa [digitRun_append_drop] at hmisread

theorem digitRun_cons (h : isDigit e = true) :
    digitRun 10 3 (e :: cs) = e :: (digitRun 10 3 (e :: cs)).tail := by
  have hne : digitRun 10 3 (e :: cs) ≠ [] := by
    rw [Ne, digitRun_eq_nil_iff (by decide)]
    intro hnone
    rw [isDigit_eq, hnone e rfl] at h
    cases h
  have hsplit := digitRun_append_drop 10 3 (e :: cs)
  obtain ⟨d, ds, hds⟩ := List.exists_cons_of_ne_nil hne
  rw [hds] at hsplit ⊢
  rw [(List.cons.inj hsplit).1]
  rfl

theorem readEscapes_digits (h : isDigit e = true) (cs : List Char) : readEscapes ('\\' :: e :: cs) =
    charOfCode (readCode 8 (digitRun 10 3 (e :: cs))) ::
      readEscapes ((e :: cs).drop (digitRun 10 3 (e :: cs)).length) := by
  rw [readEscapes_escape, readEscape_digits h]
  show _ :: readEscapes (cs.drop ((digitRun 10 3 (e :: cs)).length - 1)) = _
  rw [digitRun_cons h]
  rfl

theorem charOfCode_of_not_octal {c : Char} (hc : c ∈ ds) (hdigit : ∀ d ∈ ds, isDigit d = true)
    (hnot : (Number.digitIn 8 c).isSome = false) : charOfCode (readCode 8 ds) = replacementChar := by
  have hplus : ds.head? ≠ some '+' := fun hplus =>
    absurd (hdigit '+' (List.mem_of_mem_head? hplus)) (by decide)
  rw [charOfCode_readCode hplus]
  cases hn : Number.readDigits 8 ds with
  | none => rfl
  | some n =>
    rw [isDigit_of_readDigits hn c hc] at hnot
    cases hnot

theorem charOfCode_octal_ne {n : Nat} (hds : ds.length ≤ 3) (hn : Number.readDigits 8 ds = some n) :
    charOfCode (Number.readDigits 8 ds) ≠ replacementChar := by
  have hlt : n < 8 ^ ds.length := Number.readDigits_lt hn
  have hle : 8 ^ ds.length ≤ 8 ^ 3 := Nat.pow_le_pow_right (by decide) hds
  have hvalid : n.isValidChar := .inl (by omega)
  have htoNat : (Char.ofNat n).toNat = n := by
    unfold Char.ofNat
    rw [dif_pos hvalid]
    rfl
  rw [hn]
  show (if n.isValidChar then Char.ofNat n else replacementChar) ≠ _
  rw [if_pos hvalid]
  intro heq
  rw [heq] at htoNat
  have hlarge : replacementChar.toNat = 0xFFFD := rfl
  omega

end

/-! ### codes between braces -/

section
variable {body word : List Char} {words : List (List Char)}

theorem readDigits_plus (word : List Char) : Number.readDigits 16 ('+' :: word) = none := by
  cases hn : Number.readDigits 16 ('+' :: word) with
  | none => rfl
  | some n => exact absurd (isDigit_of_readDigits hn '+' List.mem_cons_self) (by decide)

theorem charOfCode_readCode_ne_iff : charOfCode (readCode 16 word) ≠
    charOfCode (Number.readDigits 16 word) ↔
      ∃ digits c, word = '+' :: digits ∧ Spells 16 digits c.toNat ∧ c ≠ '\uFFFD' := by
  constructor
  · intro hne
    obtain ⟨digits, rfl⟩ : ∃ digits, word = '+' :: digits := by
      cases word with
      | nil => exact absurd rfl hne
      | cons c digits =>
        by_cases hc : c = '+'
        · exact ⟨digits, by rw [hc]⟩
        · have hhead : (c :: digits).head? ≠ some '+' := mt Option.some.inj hc
          exact absurd (charOfCode_readCode hhead) hne
    rw [charOfCode_readCode_plus, readDigits_plus] at hne
    cases hn : Number.readDigits 16 digits with
    | none =>
      rw [hn] at hne
      exact absurd rfl hne
    | some n =>
      rw [hn] at hne
      obtain hc | ⟨-, hc⟩ := isCharOf_iff.2 (rfl : charOfCode (some n) = _)
      · exact ⟨digits, _, rfl, spells_iff.2 (hc.symm ▸ hn), hne⟩
      · exact absurd hc hne
  · rintro ⟨digits, c, rfl, hn, hc⟩
    rw [charOfCode_readCode_plus, readDigits_plus, spells_iff.1 hn, charOfCode_toNat]
    exact hc

theorem misread_codes_iff : Misread ('u' :: '{' :: body) ↔
    ∃ word ∈ Text.words (body.takeWhile (· != '}')),
      charOfCode (readCode 16 word) ≠ charOfCode (Number.readDigits 16 word) := by
  constructor
  · generalize htext : 'u' :: '{' :: body = text
    intro hmisread
    cases hmisread with
    | @digits ds _ c hrun hmem =>
      obtain ⟨d, ds, rfl⟩ := List.exists_cons_of_ne_nil hrun.ne_nil
      obtain ⟨rfl, -⟩ := List.cons.inj htext
      exact absurd (hrun.isDigit 'u' List.mem_cons_self) (by decide)
    | plus hwords hmem hn hc =>
      cases htext
      rw [words_iff] at hwords
      exact ⟨_, hwords.symm ▸ hmem, charOfCode_readCode_ne_iff.2 ⟨_, _, rfl, hn, hc⟩⟩
  · rintro ⟨word, hmem, hne⟩
    obtain ⟨digits, c, rfl, hn, hc⟩ := charOfCode_readCode_ne_iff.1 hne
    exact .plus (words_iff.2 rfl) hmem hn hc

theorem readEscapes_codes (body : List Char) : readEscapes ('\\' :: 'u' :: '{' :: body) =
    ((Text.words (body.takeWhile (· != '}'))).map fun word => charOfCode (readCode 16 word)) ++
      readEscapes (body.drop ((body.takeWhile (· != '}')).length + 1)) := by
  rw [readEscapes_escape, readEscape_codes]
  rfl

end

/-! ## the reader -/

section
variable {e : Char} {cs body text : List Char}

theorem not_misread (hdigit : isDigit e = false) (hbrace : ∀ body, e = 'u' → cs ≠ '{' :: body) :
    ¬ Misread (e :: cs) := by
  generalize htext : e :: cs = text
  intro hmisread
  cases hmisread with
  | @digits ds _ c hrun hmem =>
    obtain ⟨d, ds, rfl⟩ := List.exists_cons_of_ne_nil hrun.ne_nil
    obtain ⟨rfl, -⟩ := List.cons.inj htext
    rw [isDigit_eq, hrun.isDigit _ List.mem_cons_self] at hdigit
    cases hdigit
  | plus =>
    cases htext
    exact hbrace _ rfl rfl

theorem escapeOf_of_not_octal (h : (Number.digitIn 8 e).isSome = false) (hdigit : isDigit e = true) :
    escapeOf e cs = ([e], cs) := by
  have hsimple : simpleEscape? e = none := by
    cases hs : simpleEscape? e with
    | none => rfl
    | some c =>
      rw [isDigit_eq, digitIn_of_simpleEscape? hs] at hdigit
      cases hdigit
  have hne : ∀ d : Char, isDigit d = false → e ≠ d := by
    rintro d hd rfl
    rw [hd] at hdigit
    cases hdigit
  unfold escapeOf meaning?
  rw [h, if_neg Bool.false_ne_true, hsimple]
  dsimp only
  rw [if_neg (hne _ rfl), if_neg (hne _ rfl), if_neg (hne _ rfl), Option.getD_none]

theorem readEscapes_hex (cs : List Char) :
    readEscapes ('\\' :: 'x' :: cs) = (escapeOf 'x' cs).1 ++ readEscapes (escapeOf 'x' cs).2 := by
  unfold escapeOf
  rw [readEscapes_escape]
  by_cases hnil : hexRun 2 cs = []
  · rw [readEscape_hex_none hnil, show meaning? 'x' cs = none from if_pos hnil]
    rfl
  · have hcode := readCode_hexRun (by decide : 2 ≤ 8) cs
    rw [readEscape_hex cs hnil, meaning?_hex hnil, hcode]
    rfl

theorem readEscapes_unicode (hbrace : ∀ body, cs ≠ '{' :: body) :
    readEscapes ('\\' :: 'u' :: cs) = (escapeOf 'u' cs).1 ++ readEscapes (escapeOf 'u' cs).2 := by
  unfold escapeOf
  rw [readEscapes_escape]
  by_cases hlength : (hexRun 4 cs).length = 4
  · rw [readEscape_unicode cs hlength, meaning?_unicode hlength, readCode_hexRun (by decide)]
    rfl
  · -- too few digits are text, and are read as such
    have hslash : '\\' ∉ hexRun 4 cs := fun h => absurd (isHexDigit_of_mem_hexRun h) (by decide)
    rw [readEscape_unicode_none hbrace hlength, meaning?_unicode_none hbrace hlength]
    show 'u' :: hexRun 4 cs ++ readEscapes (cs.drop (hexRun 4 cs).length) = 'u' :: readEscapes cs
    rw [List.cons_append, ← readEscapes_append hslash, hexRun_append_drop]

theorem readEscapes_other (hdigit : isDigit e = false) (hbrace : ∀ body, e = 'u' → cs ≠ '{' :: body) :
    readEscapes ('\\' :: e :: cs) = (escapeOf e cs).1 ++ readEscapes (escapeOf e cs).2 := by
  have hoctal : (Number.digitIn 8 e).isSome = false := by
    cases h : (Number.digitIn 8 e).isSome with
    | false => rfl
    | true =>
      rw [isDigit_eq, isSome_digitIn_eight h] at hdigit
      cases hdigit
  by_cases hx : e = 'x'
  · rw [hx]
    exact readEscapes_hex cs
  by_cases hu : e = 'u'
  · rw [hu]
    exact readEscapes_unicode fun body => hbrace body hu
  unfold escapeOf
  rw [readEscapes_escape]
  cases hs : simpleEscape? e with
  | some c =>
    rw [meaning?_letter hs, readEscape_simple hs]
    rfl
  | none =>
    by_cases hn : e = '\n'
    · rw [hn, meaning?_newline, readEscape_newline]
      rfl
    have hnone : meaning? e cs = none := by
      unfold meaning?
      rw [hoctal, if_neg Bool.false_ne_true, hs]
      dsimp only
      rw [if_neg hn, if_neg hx, if_neg hu]
    rw [readEscape_itself hs hn hdigit hx hu, hnone]
    rfl

/-- an escape that is not misread is read as it is meant -/
theorem readEscapes_of_not_misread (h : ¬ Misread (e :: cs)) :
    readEscapes ('\\' :: e :: cs) = (escapeOf e cs).1 ++ readEscapes (escapeOf e cs).2 := by
  by_cases hdigit : isDigit e = true
  · have hall : ∀ c ∈ digitRun 10 3 (e :: cs), (Number.digitIn 8 c).isSome = true := by
      intro c hc
      by_contra hnot
      exact h ((misread_digits_iff hdigit).2 ⟨c, hc, Bool.not_eq_true _ ▸ hnot⟩)
    have he : (Number.digitIn 8 e).isSome = true :=
      hall e (by rw [digitRun_cons hdigit]; exact List.mem_cons_self)
    have hplus : (digitRun 10 3 (e :: cs)).head? ≠ some '+' := fun hplus =>
      absurd (hall '+' (List.mem_of_mem_head? hplus)) (by decide)
    unfold escapeOf
    rw [meaning?_octal he, readEscapes_digits hdigit, digitRun_eight hall, charOfCode_readCode hplus]
    rfl
  by_cases hbrace : ∃ body, e = 'u' ∧ cs = '{' :: body
  · obtain ⟨body, rfl, rfl⟩ := hbrace
    have hsame : ∀ word ∈ Text.words (body.takeWhile (· != '}')),
        charOfCode (readCode 16 word) = charOfCode (Number.readDigits 16 word) := by
      intro word hword
      by_contra hne
      exact h (misread_codes_iff.2 ⟨word, hword, hne⟩)
    rw [readEscapes_codes, List.map_congr_left hsame]
    rfl
  · exact readEscapes_other (Bool.not_eq_true _ ▸ hdigit) fun body he hcs => hbrace ⟨body, he, hcs⟩

/-- an escape that is misread comes to another text, whatever stands behind it -/
theorem readEscapes_of_misread (h : Misread (e :: cs)) (text : List Char) :
    readEscapes ('\\' :: e :: cs) ≠ (escapeOf e cs).1 ++ text := by
  by_cases hdigit : isDigit e = true
  · obtain ⟨c, hmem, hc⟩ := (misread_digits_iff hdigit).1 h
    have hall : ∀ d ∈ digitRun 10 3 (e :: cs), isDigit d = true := fun d hd =>
      (isDigit_eq d).trans (isDigit_of_mem_digitRun hd)
    rw [readEscapes_digits hdigit, charOfCode_of_not_octal hmem hall hc]
    cases hoctal : (Number.digitIn 8 e).isSome with
    | false =>
      rw [escapeOf_of_not_octal hoctal hdigit]
      intro heq
      rw [← (List.cons.inj heq).1] at hdigit
      exact absurd hdigit (by decide)
    | true =>
      have hne : digitRun 8 3 (e :: cs) ≠ [] := by
        rw [Ne, digitRun_eq_nil_iff (by decide)]
        intro hnone
        rw [hnone e rfl] at hoctal
        cases hoctal
      obtain ⟨n, hn⟩ := exists_readDigits hne fun d hd => isDigit_of_mem_digitRun hd
      unfold escapeOf
      rw [meaning?_octal hoctal]
      exact fun heq => charOfCode_octal_ne (length_digitRun_le 8 3 _) hn (List.cons.inj heq).1.symm
  by_cases hbrace : ∃ body, e = 'u' ∧ cs = '{' :: body
  · obtain ⟨body, rfl, rfl⟩ := hbrace
    obtain ⟨word, hword, hne⟩ := misread_codes_iff.1 h
    rw [readEscapes_codes]
    intro heq
    have hout := (List.append_inj heq (by rw [List.length_map]; exact (List.length_map _).symm)).1
    exact hne (List.map_inj_left.1 hout word hword)
  · exact absurd h (not_misread (Bool.not_eq_true _ ▸ hdigit)
      fun body he hcs => hbrace ⟨body, he, hcs⟩)

theorem Denotes.readEscapes_eq_iff (h : Denotes body text) :
    readEscapes body = text ↔ ∀ escape, HasEscape body escape → ¬ Misread escape := by
  induction h with
  | nil => exact iff_of_true readEscapes_nil fun _ h => nomatch h
  | lone =>
    refine iff_of_true (by rw [readEscapes]) fun escape h => ?_
    cases h with
    | plain hc => exact absurd rfl hc
    | behind he => obtain ⟨_, _, hnil⟩ := he.exists_cons; cases hnil
  | plain hc h ih =>
    rw [readEscapes_cons hc, List.cons_inj_right, ih]
    constructor
    · intro hall escape hescape
      cases hescape with
      | here => exact absurd rfl hc
      | plain _ hescape => exact hall escape hescape
      | behind => exact absurd rfl hc
    · exact fun hall escape hescape => hall escape (.plain hc hescape)
  | escape he h ih =>
    obtain ⟨e, cs, rfl⟩ := he.exists_cons
    have heq := escape_iff.1 he
    by_cases hmisread : Misread (e :: cs)
    · refine iff_of_false (fun hread => ?_) fun hall => hall _ .here hmisread
      have hne := readEscapes_of_misread hmisread
      rw [heq] at hne
      exact hne _ hread
    · have hread := readEscapes_of_not_misread hmisread
      rw [heq] at hread
      rw [hread, List.append_cancel_left_eq, ih]
      constructor
      · intro hall escape hescape
        cases hescape with
        | here => exact hmisread
        | plain hc => exact absurd rfl hc
        | behind he' hescape =>
          obtain ⟨-, rfl⟩ := he.unique he'
          exact hall escape hescape
      · exact fun hall escape hescape => hall escape (.behind he hescape)

/-- **What a body denotes, and what is read from it.**  Every body denotes one text.  The reader finds it
exactly if no escape of the body is misread.  Where one is, because not all of its digits are octal, the
reader takes them all for the code of no character. -/
theorem denotes_readEscapes_iff (body : List Char) :
    (∃! text, Denotes body text) ∧
    (Denotes body (readEscapes body) ↔ ∀ escape, HasEscape body escape → ¬ Misread escape) ∧
    ∀ ds rest, LongestRun 10 3 ds rest → (∃ c ∈ ds, (Number.digitIn 8 c).isSome = false) →
      readEscapes ('\\' :: (ds ++ rest)) = '\uFFFD' :: readEscapes rest := by
  obtain ⟨text, htext⟩ := exists_denotes body
  refine ⟨⟨text, htext, fun other hother => hother.unique htext⟩, ?_, ?_⟩
  · rw [← htext.readEscapes_eq_iff]
    exact ⟨fun h => h.unique htext, fun h => h.symm ▸ htext⟩
  · rintro ds rest hrun ⟨c, hmem, hc⟩
    have hall : ∀ d ∈ ds, isDigit d = true := fun d hd => (isDigit_eq d).trans (hrun.isDigit d hd)
    have hds := (longestRun_iff.1 hrun).2
    obtain ⟨d, ds, rfl⟩ := List.exists_cons_of_ne_nil hrun.ne_nil
    rw [List.cons_append] at hds ⊢
    rw [readEscapes_digits (hall d List.mem_cons_self), hds, charOfCode_of_not_octal hmem hall hc,
      ← List.cons_append, List.drop_left]
    rfl

/-- The digit behind an octal code is no part of it; the reader takes both for the code of no character. -/
theorem denotes_octal_then_eight :
    Denotes ['\\', '1', '8'] ['\x01', '8'] ∧ readEscapes ['\\', '1', '8'] = ['\uFFFD'] ∧
      ¬ Denotes ['\\', '1', '8'] (readEscapes ['\\', '1', '8']) := by
  have hescape : Escape ['1', '8'] ['\x01'] ['8'] := escape_iff.2 rfl
  have hdenotes : Denotes ['\\', '1', '8'] ['\x01', '8'] := .escape hescape (.plain (by decide) .nil)
  have hread : readEscapes ['\\', '1', '8'] = ['\uFFFD'] := by
    rw [readEscapes_escape, show readEscape '1' ['8'] = (['\uFFFD'], 1) from rfl]
    exact congrArg _ readEscapes_nil
  refine ⟨hdenotes, hread, fun h => ?_⟩
  have heq := hdenotes.unique h
  rw [hread] at heq
  exact absurd heq (by decide)

end

end RubyLint.Literal
