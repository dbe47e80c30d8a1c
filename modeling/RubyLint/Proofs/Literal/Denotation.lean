import Mathlib.Data.List.Forall2
import Mathlib.Data.List.TakeWhile
import RubyLint.Proofs.Literal.Codes
import RubyLint.Proofs.Literal.Numerals

/-!
# What the body of a literal denotes

The meaning of a body in double quotes, escape by escape, said without its reader.  Each backslash opens
one escape: it has a meaning, or the character behind the backslash stands for itself.

* `Meaning`              the escapes with a meaning: what they take of the text behind the backslash, and
                         what they stand for; `meaning_iff` there is one way at most to read one;
* `Escape`               every escape; `Escape.unique`;
* `Denotes`              the text of a body; `exists_denotes`, `Denotes.unique` there is always one.
-/

namespace RubyLint.Literal

/-! ## escapes with a meaning -/

/-- the letters with a meaning, and the characters that they stand for -/
def letters : List (Char × Char) :=
  [('a', '\x07'), ('b', '\x08'), ('e', '\x1b'), ('f', '\x0c'), ('n', '\n'), ('r', '\r'), ('s', ' '),
    ('t', '\t'), ('v', '\x0b')]

/-- what a word between braces stands for: the character with its number, if it is a number -/
def IsCodeOf (word : List Char) (c : Char) : Prop :=
  (∃ n, Spells 16 word n ∧ IsCharOf n c) ∨ (∀ n, ¬ Spells 16 word n) ∧ c = '\uFFFD'

/-- The escapes with a meaning: what stands behind the backslash, what the escape stands for, and what is
left behind it. -/
inductive Meaning : List Char → List Char → List Char → Prop
  | letter {e c : Char} {rest : List Char} (h : (e, c) ∈ letters) : Meaning (e :: rest) [c] rest
  /-- a broken line is nothing -/
  | newline {rest : List Char} : Meaning ('\n' :: rest) [] rest
  | octal {ds rest : List Char} {n : Nat} {c : Char} (hrun : LongestRun 8 3 ds rest)
      (hn : Spells 8 ds n) (hc : IsCharOf n c) : Meaning (ds ++ rest) [c] rest
  | hex {ds rest : List Char} {n : Nat} {c : Char} (hrun : LongestRun 16 2 ds rest)
      (hn : Spells 16 ds n) (hc : IsCharOf n c) : Meaning ('x' :: (ds ++ rest)) [c] rest
  | unicode {ds rest : List Char} {n : Nat} {c : Char} (hlength : ds.length = 4)
      (hn : Spells 16 ds n) (hc : IsCharOf n c) : Meaning ('u' :: (ds ++ rest)) [c] rest
  | codes {body rest out : List Char} {words : List (List Char)} (hbody : '}' ∉ body)
      (hwords : Words body words) (hout : List.Forall₂ IsCodeOf words out) :
      Meaning ('u' :: '{' :: (body ++ '}' :: rest)) out rest
  /-- codes up to the end of the text -/
  | openCodes {body out : List Char} {words : List (List Char)} (hbody : '}' ∉ body)
      (hwords : Words body words) (hout : List.Forall₂ IsCodeOf words out) :
      Meaning ('u' :: '{' :: body) out []

/-- What one escape stands for.  Without a meaning the character behind the backslash stands for itself. -/
inductive Escape : List Char → List Char → List Char → Prop
  | meaning {cs out rest : List Char} (h : Meaning cs out rest) : Escape cs out rest
  | itself {e : Char} {rest : List Char} (h : ∀ out rest', ¬ Meaning (e :: rest) out rest') :
      Escape (e :: rest) [e] rest

/-- the body of a literal in double quotes, and the text that it denotes -/
inductive Denotes : List Char → List Char → Prop
  | nil : Denotes [] []
  /-- a backslash at the end is a backslash -/
  | lone : Denotes ['\\'] ['\\']
  | plain {c : Char} {cs text : List Char} (hc : c ≠ '\\') (h : Denotes cs text) :
      Denotes (c :: cs) (c :: text)
  | escape {cs out rest text : List Char} (he : Escape cs out rest) (h : Denotes rest text) :
      Denotes ('\\' :: cs) (out ++ text)

section
variable {e c : Char} {cs out rest word body : List Char} {words : List (List Char)}

theorem mem_letters_iff : (e, c) ∈ letters ↔ simpleEscape? e = some c := by
  constructor
  · intro h
    simp only [letters, List.mem_cons, Prod.mk.injEq, List.not_mem_nil, or_false] at h
    rcases h with h | h | h | h | h | h | h | h | h <;> (obtain ⟨rfl, rfl⟩ := h; rfl)
  · intro h
    unfold simpleEscape? at h
    split at h <;> cases h <;> decide

theorem isCodeOf_iff : IsCodeOf word c ↔ charOfCode (Number.readDigits 16 word) = c := by
  unfold IsCodeOf
  simp only [spells_iff, isCharOf_iff]
  cases h : Number.readDigits 16 word with
  | none =>
    constructor
    · rintro (⟨_, hn, _⟩ | ⟨-, rfl⟩)
      · cases hn
      · rfl
    · rintro rfl
      exact .inr ⟨fun _ hn => (nomatch hn), rfl⟩
  | some n =>
    constructor
    · rintro (⟨m, hm, hc⟩ | ⟨hnone, -⟩)
      · exact Option.some.inj hm ▸ hc
      · exact absurd rfl (hnone n)
    · exact fun hc => .inl ⟨n, rfl, hc⟩

theorem forall₂_isCodeOf_iff : List.Forall₂ IsCodeOf words out ↔
    words.map (fun word => charOfCode (Number.readDigits 16 word)) = out := by
  have hrel : IsCodeOf = fun word c => charOfCode (Number.readDigits 16 word) = c :=
    funext fun word => funext fun c => propext isCodeOf_iff
  rw [hrel, ← List.forall₂_map_left_iff, List.forall₂_eq_eq_eq]

def meaning? (e : Char) (cs : List Char) : Option (List Char × List Char) :=
  if (Number.digitIn 8 e).isSome then
    let ds := digitRun 8 3 (e :: cs)
    some ([charOfCode (Number.readDigits 8 ds)], (e :: cs).drop ds.length)
  else match simpleEscape? e with
    | some c => some ([c], cs)
    | none =>
      if e = '\n' then some ([], cs)
      else if e = 'x' then
        if hexRun 2 cs = [] then none
        else some ([charOfCode (Number.readDigits 16 (hexRun 2 cs))], cs.drop (hexRun 2 cs).length)
      else if e = 'u' then
        match cs with
        | '{' :: body =>
          let codes := body.takeWhile (· != '}')
          some ((Text.words codes).map fun word => charOfCode (Number.readDigits 16 word),
            body.drop (codes.length + 1))
        | _ =>
          if (hexRun 4 cs).length = 4 then
            some ([charOfCode (Number.readDigits 16 (hexRun 4 cs))], cs.drop 4)
          else none
      else none

theorem digitIn_of_simpleEscape? (h : simpleEscape? e = some c) : Number.digitIn 10 e = none := by
  unfold simpleEscape? at h
  split at h <;> first | rfl | cases h

theorem isSome_digitIn_eight (h : (Number.digitIn 8 e).isSome = true) :
    (Number.digitIn 10 e).isSome = true := by
  obtain ⟨hlow, hhigh⟩ := (isSome_digitIn_iff (by decide)).1 h
  exact (isSome_digitIn_iff (by decide)).2 ⟨hlow, by omega⟩

theorem meaning?_octal (h : (Number.digitIn 8 e).isSome = true) (cs : List Char) :
    meaning? e cs = some ([charOfCode (Number.readDigits 8 (digitRun 8 3 (e :: cs)))],
      (e :: cs).drop (digitRun 8 3 (e :: cs)).length) := if_pos h

theorem meaning?_letter (h : simpleEscape? e = some c) (cs : List Char) :
    meaning? e cs = some ([c], cs) := by
  have hdigit : (Number.digitIn 8 e).isSome = false := by
    cases hd : (Number.digitIn 8 e).isSome with
    | false => rfl
    | true =>
      have hten := isSome_digitIn_eight hd
      rw [digitIn_of_simpleEscape? h] at hten
      cases hten
  unfold meaning?
  rw [hdigit, h]
  rfl

theorem meaning?_newline (cs : List Char) : meaning? '\n' cs = some ([], cs) := rfl

theorem meaning?_hex (h : hexRun 2 cs ≠ []) : meaning? 'x' cs =
    some ([charOfCode (Number.readDigits 16 (hexRun 2 cs))], cs.drop (hexRun 2 cs).length) :=
  if_neg h

theorem meaning?_codes (body : List Char) : meaning? 'u' ('{' :: body) =
    some ((Text.words (body.takeWhile (· != '}'))).map fun word =>
      charOfCode (Number.readDigits 16 word), body.drop ((body.takeWhile (· != '}')).length + 1)) := rfl

theorem meaning?_unicode (h : (hexRun 4 cs).length = 4) : meaning? 'u' cs =
    some ([charOfCode (Number.readDigits 16 (hexRun 4 cs))], cs.drop 4) := by
  show (match cs with
    | '{' :: body => _
    | _ => if (hexRun 4 cs).length = 4 then _ else none) = _
  split
  · next body =>
    have hnone : hexRun 4 ('{' :: body) = [] := List.takeWhile_cons_of_neg (by decide)
    rw [hnone] at h
    cases h
  · exact if_pos h

theorem meaning?_unicode_none (hbrace : ∀ body, cs ≠ '{' :: body) (h : (hexRun 4 cs).length ≠ 4) :
    meaning? 'u' cs = none := by
  show (match cs with
    | '{' :: body => _
    | _ => if (hexRun 4 cs).length = 4 then _ else none) = _
  split
  · next body => exact absurd rfl (hbrace body)
  · exact if_neg h

theorem hexRun_eq_append {ds rest : List Char} {limit n : Nat} (hlength : ds.length = limit)
    (hn : Number.readDigits 16 ds = some n) : hexRun limit (ds ++ rest) = ds := by
  subst hlength
  exact hexRun_append (List.all_eq_true.2 (isDigit_of_readDigits hn)) rest

theorem meaning?_of_meaning (h : Meaning (e :: cs) out rest) : meaning? e cs = some (out, rest) := by
  generalize htext : e :: cs = text at h
  cases h with
  | letter h =>
    cases htext
    exact meaning?_letter (mem_letters_iff.1 h) _
  | newline =>
    cases htext
    exact meaning?_newline _
  | @octal ds _ n c hrun hn hc =>
    have hds := (longestRun_iff.1 hrun).2
    have he : (Number.digitIn 8 e).isSome = true := by
      obtain ⟨d, ds, rfl⟩ := List.exists_cons_of_ne_nil hrun.ne_nil
      cases htext
      exact hrun.isDigit _ List.mem_cons_self
    rw [meaning?_octal he, htext, hds, spells_iff.1 hn, isCharOf_iff.1 hc, List.drop_left]
  | @hex ds _ n c hrun hn hc =>
    cases htext
    have hds : hexRun 2 (ds ++ rest) = ds := (longestRun_iff.1 hrun).2
    rw [meaning?_hex (hds.symm ▸ hrun.ne_nil), hds, spells_iff.1 hn, isCharOf_iff.1 hc, List.drop_left]
  | @unicode ds _ n c hlength hn hc =>
    cases htext
    have hds : hexRun 4 (ds ++ rest) = ds := hexRun_eq_append hlength (spells_iff.1 hn)
    rw [meaning?_unicode (by rw [hds, hlength]), hds, spells_iff.1 hn, isCharOf_iff.1 hc, ← hlength,
      List.drop_left]
  | @codes body _ _ words hbody hwords hout =>
    cases htext
    rw [meaning?_codes, Text.takeWhile_ne_append hbody, words_iff.1 hwords,
      forall₂_isCodeOf_iff.1 hout, List.drop_append, Nat.add_sub_cancel_left,
      List.drop_eq_nil_of_le (Nat.le_succ _)]
    rfl
  | @openCodes body _ words hbody hwords hout =>
    cases htext
    have hall : body.takeWhile (· != '}') = body :=
      List.takeWhile_eq_self_iff.2 (Text.all_ne_of_not_mem hbody)
    rw [meaning?_codes, hall, words_iff.1 hwords, forall₂_isCodeOf_iff.1 hout,
      List.drop_eq_nil_of_le (Nat.le_succ _)]

theorem meaning_octal (he : (Number.digitIn 8 e).isSome = true) (cs : List Char) :
    Meaning (e :: cs) [charOfCode (Number.readDigits 8 (digitRun 8 3 (e :: cs)))]
      ((e :: cs).drop (digitRun 8 3 (e :: cs)).length) := by
  have hne : digitRun 8 3 (e :: cs) ≠ [] := by
    rw [Ne, digitRun_eq_nil_iff (by decide)]
    intro hnone
    rw [hnone e rfl] at he
    cases he
  have hrun : LongestRun 8 3 (digitRun 8 3 (e :: cs))
      ((e :: cs).drop (digitRun 8 3 (e :: cs)).length) :=
    longestRun_iff.2 ⟨hne, by rw [digitRun_append_drop]⟩
  obtain ⟨n, hn⟩ := exists_readDigits hne hrun.isDigit
  have hoctal := Meaning.octal hrun (spells_iff.2 hn) (isCharOf_iff.2 rfl)
  rwa [digitRun_append_drop, ← hn] at hoctal

theorem meaning_hex (hne : hexRun 2 cs ≠ []) : Meaning ('x' :: cs)
    [charOfCode (Number.readDigits 16 (hexRun 2 cs))] (cs.drop (hexRun 2 cs).length) := by
  have hrun : LongestRun 16 2 (hexRun 2 cs) (cs.drop (hexRun 2 cs).length) :=
    longestRun_iff.2 ⟨hne, by rw [← hexRun_eq, hexRun_append_drop]⟩
  obtain ⟨n, hn⟩ := exists_readDigits hne hrun.isDigit
  have hhex := Meaning.hex hrun (spells_iff.2 hn) (isCharOf_iff.2 rfl)
  rwa [hexRun_append_drop, ← hn] at hhex

theorem meaning_codes (body : List Char) : Meaning ('u' :: '{' :: body)
    ((Text.words (body.takeWhile (· != '}'))).map fun word => charOfCode (Number.readDigits 16 word))
    (body.drop ((body.takeWhile (· != '}')).length + 1)) := by
  by_cases hclose : '}' ∈ body
  · obtain ⟨front, back, rfl, hfront⟩ := List.eq_append_cons_of_mem hclose
    rw [Text.takeWhile_ne_append hfront, List.drop_append, Nat.add_sub_cancel_left,
      List.drop_eq_nil_of_le (Nat.le_succ _)]
    exact .codes hfront (words_text front) (forall₂_isCodeOf_iff.2 rfl)
  · have hall : body.takeWhile (· != '}') = body :=
      List.takeWhile_eq_self_iff.2 (Text.all_ne_of_not_mem hclose)
    rw [hall, List.drop_eq_nil_of_le (Nat.le_succ _)]
    exact .openCodes hclose (words_text body) (forall₂_isCodeOf_iff.2 rfl)

theorem meaning_unicode (hlength : (hexRun 4 cs).length = 4) : Meaning ('u' :: cs)
    [charOfCode (Number.readDigits 16 (hexRun 4 cs))] (cs.drop 4) := by
  have hne : hexRun 4 cs ≠ [] := by
    intro hnil
    rw [hnil] at hlength
    cases hlength
  obtain ⟨n, hn⟩ := exists_readDigits hne fun c hc => isHexDigit_of_mem_hexRun hc
  have hunicode : Meaning ('u' :: (hexRun 4 cs ++ cs.drop (hexRun 4 cs).length)) _ _ :=
    .unicode hlength (spells_iff.2 hn) (isCharOf_iff.2 rfl)
  rwa [hexRun_append_drop, ← hn, hlength] at hunicode

theorem meaning_of_meaning? (h : meaning? e cs = some (out, rest)) : Meaning (e :: cs) out rest := by
  unfold meaning? at h
  split at h
  · next he =>
    cases h
    exact meaning_octal he cs
  split at h
  · next c hc =>
    cases h
    exact .letter (mem_letters_iff.2 hc)
  split at h
  · next he =>
    cases h
    rw [he]
    exact .newline
  split at h
  · next he =>
    rw [he]
    split at h
    · cases h
    · next hne =>
      cases h
      exact meaning_hex hne
  split at h
  · next he =>
    rw [he]
    split at h
    · next body =>
      cases h
      exact meaning_codes body
    · split at h
      · next hlength =>
        cases h
        exact meaning_unicode hlength
      · cases h
  · cases h

theorem meaning_iff : Meaning (e :: cs) out rest ↔ meaning? e cs = some (out, rest) :=
  ⟨meaning?_of_meaning, meaning_of_meaning?⟩

end

/-! ## one text -/

section
variable {e : Char} {cs out rest out' rest' text text' : List Char}

def escapeOf (e : Char) (cs : List Char) : List Char × List Char := (meaning? e cs).getD ([e], cs)

theorem escape_iff : Escape (e :: cs) out rest ↔ escapeOf e cs = (out, rest) := by
  unfold escapeOf
  constructor
  · intro h
    cases h with
    | meaning h => rw [meaning_iff.1 h, Option.getD_some]
    | itself h =>
      cases hnone : meaning? e cs with
      | none => rfl
      | some r => exact absurd (meaning_iff.2 hnone) (h r.1 r.2)
  · intro h
    cases hm : meaning? e cs with
    | none =>
      rw [hm] at h
      cases h
      exact .itself fun out rest hmeaning => by rw [meaning_iff, hm] at hmeaning; cases hmeaning
    | some r =>
      rw [hm] at h
      cases h
      exact .meaning (meaning_iff.2 hm)

theorem Escape.exists_cons (h : Escape cs out rest) : ∃ e cs', cs = e :: cs' := by
  cases h with
  | itself => exact ⟨_, _, rfl⟩
  | meaning h =>
    cases h with
    | octal hrun =>
      obtain ⟨d, ds, rfl⟩ := List.exists_cons_of_ne_nil hrun.ne_nil
      exact ⟨d, _, rfl⟩
    | _ => exact ⟨_, _, rfl⟩

theorem Escape.unique (h : Escape cs out rest) (h' : Escape cs out' rest') :
    out = out' ∧ rest = rest' := by
  obtain ⟨e, cs, rfl⟩ := h.exists_cons
  have heq := (escape_iff.1 h).symm.trans (escape_iff.1 h')
  exact Prod.mk.inj heq

theorem length_escapeOf_le (e : Char) (cs : List Char) : (escapeOf e cs).2.length ≤ cs.length := by
  have hescape : Escape (e :: cs) (escapeOf e cs).1 (escapeOf e cs).2 := escape_iff.2 rfl
  generalize (escapeOf e cs).1 = out, (escapeOf e cs).2 = rest at hescape
  generalize htext : e :: cs = text at hescape
  have hlength := congrArg List.length htext
  cases hescape with
  | itself => cases htext; exact Nat.le_refl _
  | meaning h =>
    cases h with
    | octal hrun =>
      have hpos := List.length_pos_iff.2 hrun.ne_nil
      rw [List.length_append, List.length_cons] at hlength
      omega
    | _ =>
      simp only [List.length_cons, List.length_append, List.length_nil] at hlength ⊢
      omega

theorem exists_denotes (body : List Char) : ∃ text, Denotes body text := by
  induction hk : body.length using Nat.strongRecOn generalizing body with
  | ind k ih =>
    subst hk
    match body with
    | [] => exact ⟨[], .nil⟩
    | c :: cs =>
      by_cases hc : c = '\\'
      · subst hc
        match cs with
        | [] => exact ⟨['\\'], .lone⟩
        | e :: cs =>
          have hle := length_escapeOf_le e cs
          obtain ⟨text, htext⟩ := ih _ (show _ < (('\\' :: e :: cs).length) by
            simp only [List.length_cons]; omega) (escapeOf e cs).2 rfl
          exact ⟨_, .escape (escape_iff.2 rfl) htext⟩
      · obtain ⟨text, htext⟩ := ih cs.length (Nat.lt_succ_self _) cs rfl
        exact ⟨c :: text, .plain hc htext⟩

theorem Denotes.unique (h : Denotes cs text) (h' : Denotes cs text') : text = text' := by
  induction h generalizing text' with
  | nil =>
    cases h'
    rfl
  | lone =>
    cases h' with
    | lone => rfl
    | plain hc => exact absurd rfl hc
    | escape he => obtain ⟨_, _, hnil⟩ := he.exists_cons; cases hnil
  | plain hc h ih =>
    cases h' with
    | lone => exact absurd rfl hc
    | plain _ h' => rw [ih h']
    | escape => exact absurd rfl hc
  | escape he h ih =>
    cases h' with
    | lone => obtain ⟨_, _, hnil⟩ := he.exists_cons; cases hnil
    | plain hc => exact absurd rfl hc
    | escape he' h' =>
      obtain ⟨rfl, rfl⟩ := he.unique he'
      rw [ih h']

end

end RubyLint.Literal
