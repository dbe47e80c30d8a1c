import Mathlib.Data.List.Induction
import Mathlib.Data.List.SplitBy
import RubyLint.Proofs.Literal.Escapes

/-!
# Codes and words

What a code in a body is made of: the digits at the front of a text, the number that they stand for and the
character with that number.  Codes between braces are words, with blanks between them.

* `LongestRun`, `longestRun_iff`   the digits at the front, as many as belong together;
* `Spells`, `spells_iff`           the number of some digits;
* `IsCharOf`, `isCharOf_iff`       the character of a number;
* `charOfCode_readCode`, `charOfCode_readCode_plus`   what is read from a code, with and without a plus;
* `Words`, `words_iff`             the words of a text.
-/

namespace RubyLint.Literal

/-! ## digits -/

section
variable {base limit n : Nat} {c : Char} {cs ds rest : List Char}

/-- the digits at the front, at most so many, and as many as there are -/
structure LongestRun (base limit : Nat) (ds rest : List Char) : Prop where
  isDigit : ∀ c ∈ ds, (Number.digitIn base c).isSome = true
  ne_nil : ds ≠ []
  length_le : ds.length ≤ limit
  longest : ds.length = limit ∨ ∀ c ∈ rest.head?, (Number.digitIn base c).isSome = false

def digitRun (base limit : Nat) (cs : List Char) : List Char :=
  (cs.take limit).takeWhile fun c => (Number.digitIn base c).isSome

theorem hexRun_eq (limit : Nat) (cs : List Char) : hexRun limit cs = digitRun 16 limit cs := rfl

theorem digitRun_append (hds : ∀ c ∈ ds, (Number.digitIn base c).isSome = true)
    (hle : ds.length ≤ limit) (rest : List Char) :
    digitRun base limit (ds ++ rest) = ds ++ digitRun base (limit - ds.length) rest := by
  unfold digitRun
  rw [List.take_append, List.take_of_length_le hle, List.takeWhile_append_of_pos hds]

theorem isDigit_of_mem_digitRun (h : c ∈ digitRun base limit cs) :
    (Number.digitIn base c).isSome = true := List.all_eq_true.1 List.all_takeWhile c h

theorem length_digitRun_le (base limit : Nat) (cs : List Char) :
    (digitRun base limit cs).length ≤ limit :=
  Nat.le_trans (List.takeWhile_prefix _).length_le (List.length_take_le _ _)

theorem digitRun_append_drop (base limit : Nat) (cs : List Char) :
    digitRun base limit cs ++ cs.drop (digitRun base limit cs).length = cs := by
  have hfront : digitRun base limit cs <+: cs :=
    (List.takeWhile_prefix _).trans (List.take_prefix _ _)
  exact List.prefix_iff_eq_append.1 hfront

theorem hexRun_append_drop (limit : Nat) (cs : List Char) :
    hexRun limit cs ++ cs.drop (hexRun limit cs).length = cs := digitRun_append_drop 16 limit cs

theorem digitRun_eq_nil_iff (hlimit : 0 < limit) : digitRun base limit cs = [] ↔
    ∀ c ∈ cs.head?, (Number.digitIn base c).isSome = false := by
  obtain ⟨limit, rfl⟩ := Nat.exists_eq_succ_of_ne_zero hlimit.ne'
  cases cs with
  | nil => simp [digitRun]
  | cons c cs => simp [digitRun, List.takeWhile_cons]

theorem longestRun_iff : LongestRun base limit ds rest ↔
    ds ≠ [] ∧ digitRun base limit (ds ++ rest) = ds := by
  constructor
  · rintro ⟨hdigit, hne, hle, hlongest⟩
    refine ⟨hne, ?_⟩
    rw [digitRun_append hdigit hle]
    rcases Nat.eq_zero_or_pos (limit - ds.length) with hzero | hpos
    · rw [hzero]
      exact List.append_nil ds
    · have hstops := hlongest.resolve_left (by omega)
      rw [(digitRun_eq_nil_iff hpos).2 hstops, List.append_nil]
  · rintro ⟨hne, hrun⟩
    have hdigit : ∀ c ∈ ds, (Number.digitIn base c).isSome = true := fun c hc =>
      isDigit_of_mem_digitRun (hrun.symm ▸ hc)
    have hle : ds.length ≤ limit := by
      have hlength := length_digitRun_le base limit (ds ++ rest)
      rwa [hrun] at hlength
    refine ⟨hdigit, hne, hle, (Nat.eq_or_lt_of_le hle).imp_right fun hlt => ?_⟩
    rw [digitRun_append hdigit hle] at hrun
    exact (digitRun_eq_nil_iff (Nat.sub_pos_of_lt hlt)).1 (List.append_right_eq_self.1 hrun)

/-- the digits of a base stand for the number, the highest in front -/
inductive Spells (base : Nat) : List Char → Nat → Prop
  | digit {c : Char} {d : Nat} (hd : Number.digitIn base c = some d) : Spells base [c] d
  | behind {cs : List Char} {c : Char} {n d : Nat} (hs : Spells base cs n)
      (hd : Number.digitIn base c = some d) : Spells base (cs ++ [c]) (n * base + d)

theorem readDigits_eq_some_iff_mapM : Number.readDigits base cs = some n ↔
    cs ≠ [] ∧ ∃ ks, cs.mapM (Number.digitIn base) = some ks ∧ Number.ofDigits base ks = n := by
  unfold Number.readDigits
  cases cs with
  | nil => exact iff_of_false (fun h => nomatch h) fun h => h.1 rfl
  | cons c cs =>
    show ((c :: cs).mapM (Number.digitIn base)).map (Number.ofDigits base) = some n ↔ _
    rw [Option.map_eq_some_iff]
    exact (and_iff_right (List.cons_ne_nil c cs)).symm

theorem spells_iff : Spells base cs n ↔ Number.readDigits base cs = some n := by
  constructor
  · intro h
    induction h with
    | @digit c d hd =>
      refine readDigits_eq_some_iff_mapM.2 ⟨List.cons_ne_nil c [], [d], ?_, ?_⟩
      · simp [hd]
      · simp [Number.ofDigits]
    | behind hs hd ih =>
      obtain ⟨-, ks, hks, rfl⟩ := readDigits_eq_some_iff_mapM.1 ih
      refine readDigits_eq_some_iff_mapM.2 ⟨by simp, ks ++ [_], ?_, Number.ofDigits_snoc _ _ _⟩
      simp [List.mapM_append, hks, hd]
  · intro h
    induction cs using List.reverseRecOn generalizing n with
    | nil => cases h
    | append_singleton cs c ih =>
      obtain ⟨-, ks, hks, rfl⟩ := readDigits_eq_some_iff_mapM.1 h
      obtain ⟨front, d, hfront, hd, rfl⟩ : ∃ front d, cs.mapM (Number.digitIn base) = some front ∧
          Number.digitIn base c = some d ∧ ks = front ++ [d] := by
        rw [List.mapM_append] at hks
        obtain ⟨front, hfront, hks⟩ := Option.bind_eq_some_iff.1 hks
        obtain ⟨last, hlast, hks⟩ := Option.bind_eq_some_iff.1 hks
        rw [List.mapM_cons] at hlast
        obtain ⟨d, hd, hlast⟩ := Option.bind_eq_some_iff.1 hlast
        exact ⟨front, d, hfront, hd, by cases hks; cases hlast; rfl⟩
      rw [Number.ofDigits_snoc]
      cases cs with
      | nil =>
        cases hfront
        show Spells base [c] (0 * base + d)
        rw [Nat.zero_mul, Nat.zero_add]
        exact .digit hd
      | cons e cs =>
        have hread := readDigits_eq_some_iff_mapM.2 ⟨List.cons_ne_nil e cs, front, hfront, rfl⟩
        exact .behind (ih hread) hd

theorem exists_readDigits (hne : ds ≠ []) (h : ∀ c ∈ ds, (Number.digitIn base c).isSome = true) :
    ∃ n, Number.readDigits base ds = some n := by
  have hall : ∀ ds : List Char, (∀ c ∈ ds, (Number.digitIn base c).isSome = true) →
      ∃ ks, ds.mapM (Number.digitIn base) = some ks := by
    intro ds h
    induction ds with
    | nil => exact ⟨[], rfl⟩
    | cons c ds ih =>
      obtain ⟨hc, hds⟩ := List.forall_mem_cons.1 h
      obtain ⟨k, hk⟩ := Option.isSome_iff_exists.1 hc
      obtain ⟨ks, hks⟩ := ih hds
      exact ⟨k :: ks, by simp [hk, hks]⟩
  obtain ⟨ks, hks⟩ := hall ds h
  exact ⟨_, readDigits_eq_some_iff_mapM.2 ⟨hne, ks, hks, rfl⟩⟩

theorem isDigit_of_readDigits (h : Number.readDigits base ds = some n) :
    ∀ c ∈ ds, (Number.digitIn base c).isSome = true := by
  obtain ⟨-, ks, hks, -⟩ := readDigits_eq_some_iff_mapM.1 h
  clear h
  induction ds generalizing ks with
  | nil => exact fun c hc => absurd hc List.not_mem_nil
  | cons c ds ih =>
    rw [List.mapM_cons] at hks
    obtain ⟨k, hk, hks⟩ := Option.bind_eq_some_iff.1 hks
    obtain ⟨rest, hrest, -⟩ := Option.bind_eq_some_iff.1 hks
    exact List.forall_mem_cons.2 ⟨Option.isSome_of_eq_some hk, ih rest hrest⟩

/-! ## characters -/

/-- the character with the number; if there is none, the mark that stands for no character -/
def IsCharOf (n : Nat) (c : Char) : Prop :=
  c.toNat = n ∨ (∀ d : Char, d.toNat ≠ n) ∧ c = '\uFFFD'

theorem isCharOf_iff : IsCharOf n c ↔ charOfCode (some n) = c := by
  unfold IsCharOf
  show _ ↔ (if n.isValidChar then Char.ofNat n else replacementChar) = c
  by_cases hvalid : n.isValidChar
  · have hof : (Char.ofNat n).toNat = n := by
      unfold Char.ofNat
      rw [dif_pos hvalid]
      rfl
    rw [if_pos hvalid]
    constructor
    · rintro (rfl | ⟨hnone, -⟩)
      · exact Char.ofNat_toNat c
      · exact absurd hof (hnone _)
    · rintro rfl
      exact .inl hof
  · rw [if_neg hvalid]
    constructor
    · rintro (rfl | ⟨-, rfl⟩)
      · exact absurd c.valid hvalid
      · rfl
    · rintro rfl
      exact .inr ⟨fun d hd => hvalid (hd ▸ d.valid), rfl⟩

theorem charOfCode_bounded (o : Option Nat) :
    charOfCode (o.bind fun n => if n ≤ 0xffffffff then some n else none) = charOfCode o := by
  cases o with
  | none => rfl
  | some n =>
    show charOfCode (if n ≤ 0xffffffff then some n else none) = _
    split
    · rfl
    · next hn =>
      have hinvalid : ¬ n.isValidChar := by
        rintro (h | h) <;> omega
      exact (if_neg hinvalid).symm

theorem readCode_eq {cs : List Char} (h : cs.head? ≠ some '+') : readCode base cs =
    (Number.readDigits base cs).bind fun n => if n ≤ 0xffffffff then some n else none := by
  unfold readCode
  split
  · exact absurd rfl h
  · dsimp only
    cases Number.readDigits base cs <;> rfl

theorem charOfCode_readCode (h : cs.head? ≠ some '+') :
    charOfCode (readCode base cs) = charOfCode (Number.readDigits base cs) := by
  rw [readCode_eq h, charOfCode_bounded]

theorem charOfCode_readCode_plus (cs : List Char) :
    charOfCode (readCode base ('+' :: cs)) = charOfCode (Number.readDigits base cs) := by
  rw [← charOfCode_bounded (Number.readDigits base cs)]
  unfold readCode
  split
  · next digits heq =>
    cases heq
    dsimp only
    cases Number.readDigits base cs <;> rfl
  · next hnot => exact absurd rfl (hnot cs)

end

/-! ## words -/

/-- the words of a text: what stands between blanks -/
inductive Words : List Char → List (List Char) → Prop
  | nil : Words [] []
  | blank {c : Char} {cs : List Char} {words : List (List Char)} (hc : Text.isBlank c = true)
      (h : Words cs words) : Words (c :: cs) words
  | word {w rest : List Char} {words : List (List Char)} (hne : w ≠ [])
      (hw : ∀ c ∈ w, Text.isBlank c = false) (hend : ∀ c ∈ rest.head?, Text.isBlank c = true)
      (h : Words rest words) : Words (w ++ rest) (w :: words)

section
variable {c : Char} {cs w rest : List Char} {words : List (List Char)}

theorem words_append {a b : List Char} (blank : Bool) (hne : a ≠ [])
    (ha : ∀ c ∈ a, Text.isBlank c = blank) (hb : ∀ c ∈ b.head?, Text.isBlank c = !blank) :
    Text.words (a ++ b) = (if blank then [] else [a]) ++ Text.words b := by
  have hends : ∀ x ∈ a.getLast?, ∀ y ∈ b.head?, (Text.isBlank x == Text.isBlank y) = false := by
    intro x hx y hy
    rw [ha x (List.mem_of_mem_getLast? hx), hb y hy]
    cases blank <;> rfl
  have hchain : a.IsChain fun x y => (Text.isBlank x == Text.isBlank y) = true := by
    refine List.Pairwise.isChain (List.pairwise_of_forall_mem_list fun x hx y hy => ?_)
    rw [ha x hx, ha y hy]
    exact beq_self_eq_true _
  have hany : a.any Text.isBlank = blank := by
    cases blank with
    | false => exact List.any_eq_false.2 fun c hc => by rw [ha c hc]; exact Bool.false_ne_true
    | true =>
      obtain ⟨c, hc⟩ := List.exists_mem_of_ne_nil a hne
      exact List.any_eq_true.2 ⟨c, hc, ha c hc⟩
  unfold Text.words
  rw [List.splitBy_append hends, List.splitBy_of_isChain hne hchain, List.filter_append,
    List.filter_cons, hany]
  cases blank <;> rfl

theorem not_of_mem_head?_dropWhile {p : Char → Bool} (hc : c ∈ (cs.dropWhile p).head?) :
    p c = false := by
  have hnot := List.head?_dropWhile_not p cs
  rw [hc] at hnot
  exact hnot

theorem words_blanks {b : List Char} (hb : ∀ c ∈ b, Text.isBlank c = true)
    (hend : ∀ c ∈ rest.head?, Text.isBlank c = false) :
    Text.words (b ++ rest) = Text.words rest := by
  by_cases hne : b = []
  · rw [hne, List.nil_append]
  · exact words_append true hne hb hend

theorem words_blank (hc : Text.isBlank c = true) : Text.words (c :: cs) = Text.words cs := by
  have hfront : ∀ d ∈ cs.takeWhile Text.isBlank, Text.isBlank d = true :=
    List.all_eq_true.1 List.all_takeWhile
  rw [← List.takeWhile_append_dropWhile (p := Text.isBlank) (l := cs), ← List.cons_append,
    words_blanks (List.forall_mem_cons.2 ⟨hc, hfront⟩) fun d hd => not_of_mem_head?_dropWhile hd,
    words_blanks hfront fun d hd => not_of_mem_head?_dropWhile hd]

theorem words_text (cs : List Char) : Words cs (Text.words cs) := by
  induction h : cs.length using Nat.strongRecOn generalizing cs with
  | ind k ih =>
    subst h
    cases cs with
    | nil => exact .nil
    | cons c cs =>
      cases hc : Text.isBlank c with
      | true =>
        rw [words_blank hc]
        exact .blank hc (ih cs.length (Nat.lt_succ_self _) cs rfl)
      | false =>
        -- the word in front ends where the next blank stands
        let p : Char → Bool := fun d => !Text.isBlank d
        have hw : ∀ d ∈ (c :: cs).takeWhile p, Text.isBlank d = false := fun d hd =>
          by simpa [p] using List.all_eq_true.1 List.all_takeWhile d hd
        have hend : ∀ d ∈ ((c :: cs).dropWhile p).head?, Text.isBlank d = true := fun d hd =>
          by simpa [p] using not_of_mem_head?_dropWhile hd
        have hpos : p c = true := by simp [p, hc]
        have hne : (c :: cs).takeWhile p ≠ [] := by
          rw [List.takeWhile_cons_of_pos hpos]
          exact List.cons_ne_nil _ _
        have hlt : ((c :: cs).dropWhile p).length < (c :: cs).length := by
          rw [List.dropWhile_cons_of_pos hpos]
          exact Nat.lt_succ_of_le (List.dropWhile_suffix p).length_le
        have hsplit := List.takeWhile_append_dropWhile (p := p) (l := c :: cs)
        have hwords := words_append false hne hw hend
        rw [hsplit] at hwords
        rw [hwords]
        conv => lhs; rw [← hsplit]
        exact .word hne hw hend (ih _ hlt _ rfl)

theorem words_iff : Words cs words ↔ Text.words cs = words := by
  constructor
  · intro h
    induction h with
    | nil => rfl
    | blank hc h ih => exact (words_blank hc).trans ih
    | word hne hw hend h ih =>
      rw [words_append false hne hw hend, ih]
      rfl
  · rintro rfl
    exact words_text cs

end

end RubyLint.Literal
