import RubyLint.Literal.StringBody

/-!
# Reading escapes

`readEscapes` goes from one backslash to the next.  Each kind of escape has a lemma here that says
what `readEscape` makes of it and how many characters it takes, so that nothing else has to look
into its cases:

* `readEscapes_cons`, `readEscapes_escape`   a bare character, a backslash with its escape;
* `readEscape_simple`, `readEscape_newline`  letters for one character, a broken line;
* `readEscape_hex`, `readEscape_unicode`     codes;
* `readEscape_itself`                        every other character.
-/

namespace RubyLint.Literal

/-! ## one step -/

theorem readEscapes_nil : readEscapes [] = [] := by
  rw [readEscapes]

theorem readEscapes_cons {c : Char} (hc : c ≠ '\\') (cs : List Char) :
    readEscapes (c :: cs) = c :: readEscapes cs := by
  rw [readEscapes]
  · exact fun h => absurd h hc
  · exact fun _ _ h => absurd h hc

theorem readEscapes_escape (e : Char) (cs : List Char) :
    readEscapes ('\\' :: e :: cs) =
      (readEscape e cs).1 ++ readEscapes (cs.drop (readEscape e cs).2) := by
  rw [readEscapes]

/-! ## codes -/

theorem hexRun_append {ds : List Char} (h : ds.all isHexDigit = true) (cs : List Char) :
    hexRun ds.length (ds ++ cs) = ds := by
  unfold hexRun
  rw [List.take_left, ← List.append_nil ds, List.takeWhile_append_of_pos (List.all_eq_true.1 h),
    List.takeWhile_nil]

theorem take_length_hexRun (limit : Nat) (cs : List Char) :
    cs.take (hexRun limit cs).length = hexRun limit cs := by
  have hfront : hexRun limit cs <+: cs :=
    List.IsPrefix.trans (List.takeWhile_prefix _) (List.take_prefix _ _)
  exact (List.prefix_iff_eq_take.1 hfront).symm

theorem length_hexRun_le (limit : Nat) (cs : List Char) : (hexRun limit cs).length ≤ limit :=
  Nat.le_trans (List.IsPrefix.length_le (List.takeWhile_prefix _)) (List.length_take_le _ _)

theorem isHexDigit_of_mem_hexRun {limit : Nat} {cs : List Char} {d : Char}
    (h : d ∈ hexRun limit cs) : isHexDigit d = true :=
  List.all_eq_true.1 List.all_takeWhile d h

theorem readCode_hexRun {limit : Nat} (hlimit : limit ≤ 8) (cs : List Char) :
    readCode 16 (hexRun limit cs) = Number.readDigits 16 (hexRun limit cs) := by
  have hplus : '+' ∉ hexRun limit cs := fun h => absurd (isHexDigit_of_mem_hexRun h) (by decide)
  have hlength := length_hexRun_le limit cs
  generalize hexRun limit cs = digits at hplus hlength ⊢
  have hread : readCode 16 digits = (Number.readDigits 16 digits).bind fun n =>
      if n ≤ 0xffffffff then some n else none := by
    unfold readCode
    split
    · exact absurd List.mem_cons_self hplus
    · dsimp only
      cases Number.readDigits 16 digits with
      | none => rfl
      | some n => rfl
  rw [hread]
  cases hn : Number.readDigits 16 digits with
  | none => rfl
  | some n =>
    have hlt : n < Nat.pow 16 digits.length := Number.readDigits_lt hn
    have hle : Nat.pow 16 digits.length ≤ Nat.pow 16 8 :=
      Nat.pow_le_pow_right (by decide) (Nat.le_trans hlength hlimit)
    exact if_pos (Nat.le_of_lt_succ (Nat.lt_of_lt_of_le hlt hle))

theorem charOfCode_toNat (c : Char) : charOfCode (some c.toNat) = c := by
  have hvalid : c.toNat.isValidChar := c.valid
  show (if c.toNat.isValidChar then Char.ofNat c.toNat else replacementChar) = c
  rw [if_pos hvalid]
  exact Char.ofNat_toNat c

/-! ## the kinds of escapes -/

theorem readEscape_simple {e c : Char} (h : simpleEscape? e = some c) (cs : List Char) :
    readEscape e cs = ([c], 0) := by
  unfold readEscape
  rw [h]

theorem readEscape_newline (cs : List Char) : readEscape '\n' cs = ([], 0) := rfl

theorem readEscape_hex (cs : List Char) (h : hexRun 2 cs ≠ []) :
    readEscape 'x' cs = ([charOfCode (readCode 16 (hexRun 2 cs))], (hexRun 2 cs).length) := by
  unfold readEscape
  rw [show simpleEscape? 'x' = none from rfl]
  dsimp only
  rw [if_neg (by decide), if_neg (by decide), if_pos rfl]
  split
  · next hnil => exact absurd hnil h
  · rfl

/-- A code of four digits does not open with a brace. -/
theorem readEscape_unicode (cs : List Char) (h : (hexRun 4 cs).length = 4) :
    readEscape 'u' cs = ([charOfCode (readCode 16 (hexRun 4 cs))], 4) := by
  unfold readEscape
  rw [show simpleEscape? 'u' = none from rfl]
  dsimp only
  rw [if_neg (by decide), if_neg (by decide), if_neg (by decide), if_pos rfl]
  split
  · next body =>
    have hnone : hexRun 4 ('{' :: body) = [] := List.takeWhile_cons_of_neg (by decide)
    rw [hnone] at h
    cases h
  · exact if_pos h

theorem readEscape_itself {e : Char} (hs : simpleEscape? e = none) (hn : e ≠ '\n')
    (hd : isDigit e = false) (hx : e ≠ 'x') (hu : e ≠ 'u') (cs : List Char) :
    readEscape e cs = ([e], 0) := by
  unfold readEscape
  rw [hs]
  show (if e = '\n' then _ else if isDigit e then _ else if e = 'x' then _
    else if e = 'u' then _ else ([e], 0)) = _
  rw [if_neg hn, hd, if_neg Bool.false_ne_true, if_neg hx, if_neg hu]

end RubyLint.Literal
