import Mathlib.Data.List.Find
import Mathlib.Data.List.TakeWhile
import RubyLint.Pattern.Token

/-!
# Tokens are cut off one by one

How far the scanner of patterns looks ahead.  A token that ends in front of a letter is the same whatever
stands behind the letter, so that the tokens in front of a word do not depend on the rest of the text.

* `takeSymbol_congr`, `takeString_congr`, `takeWord_congr`, `takeNumber_letter`   for the shapes of tokens;
* `first_congr`              for the token at the front;
* `scanFrom_front`           the tokens up to a place where one starts are cut off first.
-/

namespace RubyLint.Pattern.Token

section
variable {a c : Char} {f x y : List Char} {n : Nat}

/-! ## runs of characters -/

theorem head?_congr (f : List Char) (a : Char) (x y : List Char) :
    (f ++ a :: x).head? = (f ++ a :: y).head? := by
  cases f <;> rfl

/-- a run that ends in front of a character that would belong to it ends before -/
theorem takeWhile_of_length_le {p : Char → Bool} (ha : p a = true)
    (hle : ((f ++ a :: x).takeWhile p).length ≤ f.length) :
    (f.takeWhile p).length < f.length ∧ ∀ y, (f ++ a :: y).takeWhile p = f.takeWhile p := by
  have hne : (f.takeWhile p).length ≠ f.length := by
    intro heq
    rw [List.takeWhile_append, if_pos heq, List.takeWhile_cons_of_pos ha, List.length_append,
      List.length_cons] at hle
    omega
  have hfront := (List.takeWhile_prefix p (l := f)).length_le
  exact ⟨by omega, fun y => by rw [List.takeWhile_append, if_neg hne]⟩

theorem takeWhile_of_not {p : Char → Bool} (ha : p a = false) (f x : List Char) :
    (f ++ a :: x).takeWhile p = f.takeWhile p := by
  rw [List.takeWhile_append, List.takeWhile_cons_of_neg (by simp [ha]), List.append_nil]
  split
  · next heq =>
    have hfront := List.takeWhile_prefix p (l := f)
    exact (hfront.eq_of_length heq).symm
  · rfl

theorem isPrefixOf_congr {op : List Char} (ha : a ∉ op) (f x y : List Char) :
    op.isPrefixOf (f ++ a :: x) = op.isPrefixOf (f ++ a :: y) := by
  induction op generalizing f with
  | nil => rw [List.isPrefixOf, List.isPrefixOf]
  | cons b op ih =>
    have hb : (b == a) = false := beq_eq_false_iff_ne.2 fun h => ha (h ▸ List.mem_cons_self)
    cases f with
    | nil =>
      show (b == a && _) = (b == a && _)
      rw [hb, Bool.false_and, Bool.false_and]
    | cons d f =>
      show (b == d && op.isPrefixOf (f ++ a :: x)) = (b == d && op.isPrefixOf (f ++ a :: y))
      rw [ih fun h => ha (List.mem_cons_of_mem _ h)]

/-! ## the shapes of tokens -/

theorem length_run_le_takeWord (cs : List Char) :
    (cs.takeWhile isWordChar).length ≤ (takeWord cs).length := by
  unfold takeWord
  dsimp only
  split
  · rw [List.length_append]
    exact Nat.le_add_right _ _
  · exact Nat.le_refl _

theorem takeWord_congr (ha : isWordChar a = true) (hle : (takeWord (f ++ a :: x)).length ≤ f.length)
    (y : List Char) : takeWord (f ++ a :: y) = takeWord (f ++ a :: x) := by
  obtain ⟨hlt, hrun⟩ := takeWhile_of_length_le ha ((length_run_le_takeWord _).trans hle)
  unfold takeWord
  rw [hrun, hrun]
  dsimp only
  rw [List.drop_append_of_le_length hlt.le, List.drop_append_of_le_length hlt.le, head?_congr _ a y x]

theorem symbolMark_cons (b : Char) (cs : List Char) : symbolMark (b :: cs) =
    if b = '=' ∧ cs.head? = some '>' then 0 else if b = '?' ∨ b = '!' ∨ b = '=' then 1 else 0 := by
  unfold symbolMark
  split
  · next heq =>
    cases heq
    rfl
  · next heq =>
    cases heq
    rfl
  · next heq =>
    cases heq
    rfl
  · next hnot heq =>
    cases heq
    have hhead : cs.head? ≠ some '>' := by
      cases cs with
      | nil => exact fun h => nomatch h
      | cons d cs =>
        intro h
        exact hnot cs (by rw [Option.some.inj h])
    rw [if_neg fun h => hhead h.2, if_pos (.inr (.inr rfl))]
  · next hquestion hbang hequals =>
    rw [if_neg fun h => hequals cs (by rw [h.1]), if_neg]
    rintro (rfl | rfl | rfl)
    · exact hquestion cs rfl
    · exact hbang cs rfl
    · exact hequals cs rfl

theorem symbolMark_congr {g : List Char} (hg : g ≠ []) (a : Char) (x y : List Char) :
    symbolMark (g ++ a :: x) = symbolMark (g ++ a :: y) := by
  obtain ⟨b, g, rfl⟩ := List.exists_cons_of_ne_nil hg
  rw [List.cons_append, List.cons_append, symbolMark_cons, symbolMark_cons, head?_congr g a x y]

theorem takeString_pos {cs text : List Char} (h : takeString cs = some (text, n)) : 0 < n := by
  unfold takeString at h
  split at h
  · cases h
  · cases h
    exact Nat.one_pos
  · cases h
  · obtain ⟨_, -, heq⟩ := Option.map_eq_some_iff.1 h
    cases heq
    exact Nat.succ_pos _
  · obtain ⟨_, -, heq⟩ := Option.map_eq_some_iff.1 h
    cases heq
    exact Nat.succ_pos _

theorem takeString_plain {d : Char} (hquote : d ≠ '\x22') (hslash : d ≠ '\\') (cs : List Char) :
    takeString (d :: cs) = (takeString cs).map fun (text, n) => (d :: text, n + 1) := by
  rw [takeString]
  · exact hquote
  · exact fun h _ => hslash h
  · exact fun _ _ h _ => hslash h

/-- a text in quotes ends where it ends, whatever stands behind it -/
theorem takeString_congr {text : List Char} (h : takeString (f ++ x) = some (text, n))
    (hn : n ≤ f.length) (y : List Char) : takeString (f ++ y) = some (text, n) := by
  induction f using takeString.induct generalizing text n with
  | case1 => exact absurd (takeString_pos h) (by simpa using hn)
  | case2 f => exact h
  | case3 =>
    -- the backslash takes a character that does not stand in front
    cases x with
    | nil => cases h
    | cons d x =>
      obtain ⟨_, -, heq⟩ := Option.map_eq_some_iff.1 h
      cases heq
      exact absurd hn (by simp)
  | case4 d f ih =>
    obtain ⟨⟨text', m⟩, hm, heq⟩ := Option.map_eq_some_iff.1 h
    cases heq
    exact Option.map_eq_some_iff.2 ⟨_, ih hm (by simpa using hn), rfl⟩
  | case5 d f hquote hslash hslash' ih =>
    have hne : d ≠ '\\' := fun hd => by
      cases f with
      | nil => exact hslash hd rfl
      | cons => exact hslash' _ _ hd rfl
    rw [List.cons_append, takeString_plain hquote hne] at h ⊢
    obtain ⟨⟨text', m⟩, hm, heq⟩ := Option.map_eq_some_iff.1 h
    cases heq
    exact Option.map_eq_some_iff.2 ⟨_, ih hm (by simpa using hn), rfl⟩

theorem not_mem_operators (ha : a.isLower = true) : ∀ op ∈ operators, a ∉ op.toList := by
  have hall : (operators.all fun op => op.toList.all fun c => !c.isLower) = true := by decide +kernel
  intro op hop hmem
  have hnot := List.all_eq_true.1 (List.all_eq_true.1 hall op hop) a hmem
  rw [ha] at hnot
  cases hnot

theorem isWordChar_of_isAlpha (h : (c.isAlpha || c == '_') = true) : isWordChar c = true := by
  unfold isWordChar Char.isAlphanum
  rcases Bool.or_eq_true_iff.1 h with h | h
  · rw [h, Bool.true_or, Bool.true_or]
  · rw [h, Bool.or_true]

theorem isWordChar_of_isLower (ha : a.isLower = true) : isWordChar a = true := by
  refine isWordChar_of_isAlpha ?_
  unfold Char.isAlpha
  rw [ha, Bool.or_true, Bool.true_or]

theorem takeSymbol_congr {name : String} (ha : a.isLower = true)
    (h : takeSymbol (f ++ a :: x) = some (name, n)) (hn : n ≤ f.length) (y : List Char) :
    takeSymbol (f ++ a :: y) = some (name, n) := by
  have hword := isWordChar_of_isLower ha
  cases f with
  | nil =>
    -- the letter would belong to the name
    have hquote : a ≠ '\x22' := fun h => absurd (h ▸ ha) (by decide)
    have halpha : (a.isAlpha || a == '_') = true := by
      unfold Char.isAlpha
      rw [ha, Bool.or_true, Bool.true_or]
    rw [List.nil_append, takeSymbol, if_neg hquote, if_pos halpha,
      List.takeWhile_cons_of_pos hword] at h
    obtain ⟨-, hlength⟩ := Prod.mk.inj (Option.some.inj h)
    rw [List.length_cons] at hlength
    rw [List.length_nil] at hn
    omega
  | cons d f =>
    rw [List.cons_append] at h ⊢
    unfold takeSymbol at h ⊢
    dsimp only at h ⊢
    by_cases hquote : d = '\x22'
    · rw [if_pos hquote] at h ⊢
      obtain ⟨⟨text, m⟩, hm, heq⟩ := Option.map_eq_some_iff.1 h
      cases heq
      exact Option.map_eq_some_iff.2 ⟨_, takeString_congr hm (by simpa using hn) _, rfl⟩
    rw [if_neg hquote] at h ⊢
    by_cases halpha : (d.isAlpha || d == '_') = true
    · rw [if_pos halpha, ← List.cons_append] at h ⊢
      obtain ⟨hname, hlength⟩ := Prod.mk.inj (Option.some.inj h)
      obtain ⟨hlt, hrun⟩ := takeWhile_of_length_le hword
        (Nat.le_trans (Nat.le_add_right _ _) (hlength.trans_le hn))
      have hmark : symbolMark ((d :: f ++ a :: y).drop ((d :: f).takeWhile isWordChar).length) =
          symbolMark ((d :: f ++ a :: x).drop ((d :: f).takeWhile isWordChar).length) := by
        rw [List.drop_append_of_le_length hlt.le, List.drop_append_of_le_length hlt.le]
        exact symbolMark_congr (List.drop_eq_nil_iff.not.2 (by omega)) a y x
      rw [hrun] at hlength hname
      rw [hlength, List.take_append_of_le_length hn] at hname
      rw [hrun, hmark, hlength, List.take_append_of_le_length hn, hname]
    · rw [if_neg halpha] at h ⊢
      have hfind : operators.find? (fun op => op.toList.isPrefixOf (d :: (f ++ a :: y))) =
          operators.find? (fun op => op.toList.isPrefixOf (d :: (f ++ a :: x))) :=
        List.find?_congr fun op hop => isPrefixOf_congr (not_mem_operators ha op hop) (d :: f) y x
      rwa [hfind]

theorem isDigit_of_isLower (ha : a.isLower = true) : a.isDigit = false := by
  unfold Char.isLower at ha
  unfold Char.isDigit
  grind

theorem ne_of_isLower {b : Char} (ha : a.isLower = true) (hb : b.isLower = false) : a ≠ b := by
  rintro rfl
  rw [hb] at ha
  cases ha

theorem isFigure_of_isLower (ha : a.isLower = true) : isFigure a = false := by
  unfold isFigure
  rw [isDigit_of_isLower ha, Bool.false_or, beq_eq_false_iff_ne]
  exact ne_of_isLower ha rfl

def wholeLength (cs : List Char) : Nat :=
  let sign := if cs.head? = some '-' then 1 else 0
  sign + ((cs.drop sign).takeWhile isFigure).length

theorem numberLength_eq (cs : List Char) : numberLength cs =
    let behind := cs.drop (wholeLength cs)
    if behind.head? = some '.' ∧ behind.tail.head?.any Char.isDigit = true then
      (wholeLength cs + 1 + (behind.tail.takeWhile isFigure).length, true)
    else (wholeLength cs, false) := by
  unfold numberLength wholeLength
  dsimp only
  generalize (if cs.head? = some '-' then 1 else 0) = sign
  generalize sign + ((cs.drop sign).takeWhile isFigure).length = whole
  generalize cs.drop whole = behind
  split
  · next d rest =>
    by_cases hd : d.isDigit = true
    · rw [if_pos hd]
      exact (if_pos ⟨rfl, hd⟩).symm
    · rw [if_neg hd]
      exact (if_neg fun h => hd h.2).symm
  · next hnot =>
    refine (if_neg ?_).symm
    rintro ⟨hhead, htail⟩
    obtain ⟨d, hd, -⟩ := (Option.any_eq_true _ _).1 htail
    obtain ⟨behind, rfl⟩ := List.head?_eq_some_iff.1 hhead
    obtain ⟨rest, rfl⟩ := List.head?_eq_some_iff.1 hd
    exact hnot d rest rfl

theorem wholeLength_le_numberLength (cs : List Char) : wholeLength cs ≤ (numberLength cs).1 := by
  rw [numberLength_eq]
  dsimp only
  split
  · show wholeLength cs ≤ wholeLength cs + 1 + _
    omega
  · exact Nat.le_refl _

theorem wholeLength_letter (ha : a.isLower = true) (f x : List Char) :
    wholeLength f ≤ f.length ∧ wholeLength (f ++ a :: x) = wholeLength f := by
  have hsign : (f ++ a :: x).head? = some '-' ↔ f.head? = some '-' := by
    cases f with
    | nil => exact iff_of_false (fun h => ne_of_isLower ha rfl (Option.some.inj h)) nofun
    | cons => rfl
  have hle : (if f.head? = some '-' then 1 else 0) ≤ f.length := by
    split
    · next hhead => exact List.length_pos_of_mem (List.mem_of_mem_head? hhead)
    · exact Nat.zero_le _
  unfold wholeLength
  rw [if_congr hsign rfl rfl]
  generalize (if f.head? = some '-' then 1 else 0) = sign at hle
  have hrun := (List.takeWhile_prefix isFigure (l := f.drop sign)).length_le
  rw [List.length_drop] at hrun
  dsimp only
  rw [List.drop_append_of_le_length hle, takeWhile_of_not (isFigure_of_isLower ha)]
  exact ⟨by omega, rfl⟩

theorem numberLength_letter (ha : a.isLower = true) (f x : List Char) :
    (numberLength f).1 ≤ f.length ∧ numberLength (f ++ a :: x) = numberLength f := by
  obtain ⟨hle, hwhole⟩ := wholeLength_letter ha f x
  rw [numberLength_eq, numberLength_eq, hwhole]
  dsimp only
  rw [List.drop_append_of_le_length hle]
  have hlength : (f.drop (wholeLength f)).length = f.length - wholeLength f := List.length_drop
  generalize f.drop (wholeLength f) = behind at hlength
  cases behind with
  | nil =>
    rw [if_neg (fun h => nomatch h.1), if_neg fun h => ne_of_isLower ha rfl (Option.some.inj h.1)]
    exact ⟨hle, rfl⟩
  | cons b behind =>
    have hdigit : (behind ++ a :: x).head?.any Char.isDigit = behind.head?.any Char.isDigit := by
      cases behind with
      | nil => exact isDigit_of_isLower ha
      | cons => rfl
    have hrun := (List.takeWhile_prefix isFigure (l := behind)).length_le
    rw [List.length_cons] at hlength
    rw [List.cons_append, List.head?_cons, List.head?_cons, List.tail_cons, List.tail_cons, hdigit,
      takeWhile_of_not (isFigure_of_isLower ha)]
    refine ⟨?_, rfl⟩
    split
    · show wholeLength f + 1 + _ ≤ _
      omega
    · exact hle

theorem takeNumber_letter (ha : a.isLower = true) (f x : List Char) :
    takeNumber (f ++ a :: x) = takeNumber f := by
  obtain ⟨hle, hlength⟩ := numberLength_letter ha f x
  unfold takeNumber
  rw [hlength]
  dsimp only
  rw [List.take_append_of_le_length hle]

theorem length_of_takeNumber {t : Token} {cs : List Char} (h : takeNumber cs = .ok (t, n)) :
    n = (numberLength cs).1 := by
  unfold takeNumber at h
  dsimp only at h
  split at h
  · cases h
    rfl
  · cases h

theorem length_of_takePercent {t : Token} {cs : List Char} (h : takePercent cs = .ok (t, n)) :
    n = (cs.takeWhile isWordChar).length + 1 := by
  unfold takePercent at h
  dsimp only at h
  split at h
  · cases h
  · split at h <;> cases h <;> rfl

theorem takePercent_congr {t : Token} (ha : isWordChar a = true)
    (h : takePercent (f ++ a :: x) = .ok (t, n)) (hn : n ≤ f.length + 1) (y : List Char) :
    takePercent (f ++ a :: y) = .ok (t, n) := by
  have hlength := length_of_takePercent h
  obtain ⟨-, hrun⟩ := takeWhile_of_length_le (f := f) (x := x) ha (by omega)
  unfold takePercent at h ⊢
  rw [hrun] at h ⊢
  exact h

/-! ## the token at the front -/

theorem fromOption_eq_ok {fault : PatternFault} {o : Option (Token × Nat)} {r : Token × Nat} :
    fromOption fault o = .ok r ↔ o = some r := by
  cases o with
  | none => exact iff_of_false (fun h => nomatch h) nofun
  | some r' =>
    constructor
    · intro h
      cases h
      rfl
    · intro h
      cases h
      rfl

/-- a token that ends in front of a letter is the same whatever stands behind the letter -/
theorem first_congr {t : Token} (ha : a.isLower = true) (h : first c (f ++ a :: x) = .ok (t, n))
    (hn : n ≤ f.length + 1) (y : List Char) : first c (f ++ a :: y) = .ok (t, n) := by
  have hword := isWordChar_of_isLower ha
  unfold first at h ⊢
  cases hchar : ofChar? c with
  | some t' =>
    rw [hchar] at h
    exact h
  | none =>
  rw [hchar] at h
  dsimp only at h ⊢
  have hdots : "...".toList.isPrefixOf (c :: (f ++ a :: y)) =
      "...".toList.isPrefixOf (c :: (f ++ a :: x)) :=
    isPrefixOf_congr (fun hmem => ne_of_isLower ha rfl (by simpa using hmem)) (c :: f) y x
  rw [hdots]
  by_cases hellipsis : "...".toList.isPrefixOf (c :: (f ++ a :: x)) = true
  · rw [if_pos hellipsis] at h ⊢
    exact h
  rw [if_neg hellipsis] at h ⊢
  by_cases hcolon : c = ':'
  · rw [if_pos hcolon, fromOption_eq_ok] at h ⊢
    obtain ⟨⟨name, m⟩, hm, heq⟩ := Option.map_eq_some_iff.1 h
    cases heq
    exact Option.map_eq_some_iff.2 ⟨_, takeSymbol_congr ha hm (by omega) y, rfl⟩
  rw [if_neg hcolon] at h ⊢
  by_cases hquote : c = '\x22'
  · rw [if_pos hquote, fromOption_eq_ok] at h ⊢
    obtain ⟨⟨text, m⟩, hm, heq⟩ := Option.map_eq_some_iff.1 h
    cases heq
    exact Option.map_eq_some_iff.2 ⟨_, takeString_congr hm (by omega) _, rfl⟩
  rw [if_neg hquote] at h ⊢
  rw [head?_congr f a y x]
  by_cases hnumber : (c.isDigit || (c == '-' && (f ++ a :: x).head?.any Char.isDigit)) = true
  · rw [if_pos hnumber] at h ⊢
    rw [← List.cons_append, takeNumber_letter ha] at h ⊢
    exact h
  rw [if_neg hnumber] at h ⊢
  by_cases hpercent : c = '%'
  · rw [if_pos hpercent] at h ⊢
    exact takePercent_congr hword h hn y
  rw [if_neg hpercent] at h ⊢
  by_cases hsharp : c = '#'
  · rw [if_pos hsharp] at h ⊢
    have hlength : (takeWord (f ++ a :: x)).length ≤ f.length := by
      split at h
      · cases h
      · cases h
        omega
    rw [takeWord_congr hword hlength y]
    exact h
  rw [if_neg hsharp] at h ⊢
  by_cases hupper : c.isUpper = true
  · rw [if_pos hupper] at h ⊢
    cases h
    obtain ⟨-, hrun⟩ := takeWhile_of_length_le (f := c :: f) hword hn
    rw [← List.cons_append, ← List.cons_append, hrun, hrun]
  rw [if_neg hupper] at h ⊢
  by_cases hlower : (c.isLower || c == '_') = true
  · rw [if_pos hlower] at h ⊢
    cases h
    rw [← List.cons_append, ← List.cons_append, takeWord_congr (f := c :: f) hword hn y]
  · rw [if_neg hlower] at h
    cases h

theorem numberLength_pos {cs : List Char} (hc : c.isDigit = true ∨ c = '-') :
    0 < (numberLength (c :: cs)).1 := by
  have hwhole : 0 < wholeLength (c :: cs) := by
    unfold wholeLength
    by_cases hsign : c = '-'
    · rw [List.head?_cons, if_pos (congrArg some hsign)]
      exact Nat.lt_of_lt_of_le Nat.one_pos (Nat.le_add_right 1 _)
    · have hfigure : isFigure c = true := by
        unfold isFigure
        rw [hc.resolve_right hsign, Bool.true_or]
      rw [List.head?_cons, if_neg (mt Option.some.inj hsign)]
      show 0 < 0 + ((c :: cs).takeWhile isFigure).length
      rw [List.takeWhile_cons_of_pos hfigure, List.length_cons]
      omega
  exact Nat.lt_of_lt_of_le hwhole (wholeLength_le_numberLength _)

theorem takeWord_pos {cs : List Char} (hc : isWordChar c = true) : 0 < (takeWord (c :: cs)).length := by
  have hrun := length_run_le_takeWord (c :: cs)
  rw [List.takeWhile_cons_of_pos hc, List.length_cons] at hrun
  omega

theorem first_pos {t : Token} {cs : List Char} (h : first c cs = .ok (t, n)) : 0 < n := by
  unfold first at h
  split at h
  · cases h
    exact Nat.one_pos
  split at h
  · cases h
    exact Nat.succ_pos _
  split at h
  · obtain ⟨_, -, heq⟩ := Option.map_eq_some_iff.1 (fromOption_eq_ok.1 h)
    cases heq
    exact Nat.succ_pos _
  split at h
  · obtain ⟨_, -, heq⟩ := Option.map_eq_some_iff.1 (fromOption_eq_ok.1 h)
    cases heq
    exact Nat.succ_pos _
  split at h
  · next hnumber =>
    have hc : c.isDigit = true ∨ c = '-' := by
      rw [Bool.or_eq_true, Bool.and_eq_true, beq_iff_eq] at hnumber
      exact hnumber.imp_right And.left
    rw [length_of_takeNumber h]
    exact numberLength_pos hc
  split at h
  · rw [length_of_takePercent h]
    exact Nat.succ_pos _
  split at h
  · split at h
    · cases h
    · cases h
      exact Nat.succ_pos _
  split at h
  · next hupper =>
    cases h
    have hword : isWordChar c = true := isWordChar_of_isAlpha (by
      unfold Char.isAlpha
      rw [hupper, Bool.true_or, Bool.true_or])
    rw [List.takeWhile_cons_of_pos hword]
    exact Nat.succ_pos _
  split at h
  · next hlower =>
    cases h
    refine takeWord_pos ?_
    rcases Bool.or_eq_true_iff.1 hlower with hlower | hlower
    · exact isWordChar_of_isLower hlower
    · rw [beq_iff_eq.1 hlower]
      rfl
  · cases h

/-! ## the tokens of a text -/

theorem scanFrom_blank {cs : List Char} (h : Text.isBlank c = true) (offset : Nat) :
    scanFrom offset (c :: cs) = scanFrom (offset + c.utf8Size) cs := by
  rw [scanFrom.eq_def]
  exact if_pos h

theorem scanFrom_token {t : Token} {cs : List Char} (hblank : Text.isBlank c = false)
    (h : first c cs = .ok (t, n)) (offset : Nat) : scanFrom offset (c :: cs) =
      (scanFrom (offset + Text.byteLength ((c :: cs).take n)) (cs.drop (n - 1))).map
        (⟨t, offset, offset + Text.byteLength ((c :: cs).take n)⟩ :: ·) := by
  rw [scanFrom.eq_def]
  dsimp only
  rw [if_neg (by rw [hblank]; exact Bool.false_ne_true), h]
  dsimp only
  cases scanFrom (offset + Text.byteLength ((c :: cs).take n)) (cs.drop (n - 1)) with
  | error e => rfl
  | ok more => rfl

theorem scanFrom_fault {fault : PatternFault} {cs : List Char} (hblank : Text.isBlank c = false)
    (h : first c cs = .error fault) (offset : Nat) :
    scanFrom offset (c :: cs) = .error ⟨fault, offset⟩ := by
  rw [scanFrom.eq_def]
  dsimp only
  rw [if_neg (by rw [hblank]; exact Bool.false_ne_true), h]

theorem exists_of_map_eq_ok {ε α β : Type} {r : Except ε α} {g : α → β} {b : β}
    (h : r.map g = .ok b) : ∃ a, r = .ok a ∧ b = g a := by
  cases r with
  | error e => cases h
  | ok a =>
    cases h
    exact ⟨a, rfl, rfl⟩

/-- characters from the front that take no more bytes than the front are no more characters -/
theorem length_le_of_byteLength_le
    (h : Text.byteLength ((c :: (f ++ a :: x)).take n) ≤ Text.byteLength (c :: f)) :
    n ≤ f.length + 1 := by
  by_contra hlt
  obtain ⟨m, rfl⟩ := Nat.exists_eq_add_of_lt (Nat.lt_of_not_le hlt)
  have htake : (c :: (f ++ a :: x)).take (f.length + 1 + m + 1) = (c :: f) ++ a :: x.take m := by
    rw [← List.cons_append, List.take_append, List.take_of_length_le (by simp; omega)]
    congr 1
    rw [List.length_cons, show f.length + 1 + m + 1 - (f.length + 1) = m + 1 by omega, List.take_succ_cons]
  have hpos := a.utf8Size_pos
  rw [htake, Text.byteLength_append, Text.byteLength_cons a] at h
  omega

theorem take_append_drop_of_pos (h : 0 < n) (c : Char) (f : List Char) :
    (c :: f).take n ++ f.drop (n - 1) = c :: f := by
  obtain ⟨m, rfl⟩ := Nat.exists_eq_add_of_lt h
  rw [Nat.zero_add, List.take_succ_cons, Nat.add_sub_cancel, List.cons_append, List.take_append_drop]

theorem start_le_of_mem {offset : Nat} {cs : List Char} {tokens : List Placed}
    (h : scanFrom offset cs = .ok tokens) : ∀ t ∈ tokens, offset ≤ t.start := by
  fun_induction scanFrom offset cs generalizing tokens with
  | case1 offset =>
    cases h
    exact fun t ht => absurd ht List.not_mem_nil
  | case2 offset c rest hblank ih => exact fun t ht => (Nat.le_add_right _ _).trans (ih h t ht)
  | case3 offset c rest hblank fault hfirst => cases h
  | case4 offset c rest hblank token n hfirst stop e hrest => cases h
  | case5 offset c rest hblank token n hfirst stop more hrest =>
    rename_i ih
    cases h
    exact List.forall_mem_cons.2
      ⟨Nat.le_refl _, fun t ht => (Nat.le_add_right _ _).trans (ih hrest t ht)⟩

/-- a token that ends in front of a letter is cut off, whatever stands behind the letter -/
theorem scanFrom_front_token {t : Token} (ha : a.isLower = true) (hblank : Text.isBlank c = false)
    (h : first c (f ++ a :: x) = .ok (t, n)) (hn : n ≤ f.length + 1) (offset : Nat) (y : List Char) :
    scanFrom offset (c :: (f ++ a :: y)) =
      (scanFrom (offset + Text.byteLength ((c :: f).take n)) (f.drop (n - 1) ++ a :: y)).map
        (⟨t, offset, offset + Text.byteLength ((c :: f).take n)⟩ :: ·) := by
  have htake : (c :: (f ++ a :: y)).take n = (c :: f).take n := by
    rw [← List.cons_append, List.take_append_of_le_length hn]
  have hdrop : (f ++ a :: y).drop (n - 1) = f.drop (n - 1) ++ a :: y :=
    List.drop_append_of_le_length (by omega)
  rw [scanFrom_token hblank (first_congr ha h hn y), htake, hdrop]

/-- **The tokens up to a letter where one starts are cut off first, whatever stands behind the letter.** -/
theorem scanFrom_front (ha : a.isLower = true) {offset : Nat} {front : List Char} {tokens : List Placed}
    (h : scanFrom offset (front ++ a :: x) = .ok tokens) {t : Placed} (ht : t ∈ tokens)
    (hstart : t.start = offset + Text.byteLength front) :
    ∃ before, ∀ y, scanFrom offset (front ++ a :: y) =
      (scanFrom (offset + Text.byteLength front) (a :: y)).map (before ++ ·) := by
  induction hlength : front.length using Nat.strong_induction_on generalizing offset front tokens with
  | _ k ih =>
  cases front with
  | nil =>
    refine ⟨[], fun y => ?_⟩
    show _ = (scanFrom offset (a :: y)).map fun rest => rest
    cases hscan : scanFrom offset (a :: y) with
    | error e => exact hscan
    | ok rest => exact hscan
  | cons c f =>
    rw [List.length_cons] at hlength
    rw [List.cons_append] at h
    rw [Text.byteLength_cons] at hstart ⊢
    cases hblank : Text.isBlank c with
    | true =>
      rw [scanFrom_blank hblank] at h
      obtain ⟨before, hbefore⟩ := ih f.length (by omega) h ht (by omega) rfl
      refine ⟨before, fun y => ?_⟩
      rw [List.cons_append, scanFrom_blank hblank, hbefore, Nat.add_assoc]
    | false =>
      cases hfirst : first c (f ++ a :: x) with
      | error fault =>
        rw [scanFrom_fault hblank hfirst] at h
        cases h
      | ok r =>
        obtain ⟨token, n⟩ := r
        have hcut := h
        rw [scanFrom_token hblank hfirst] at hcut
        obtain ⟨more, hmore, rfl⟩ := exists_of_map_eq_ok hcut
        have hpos := c.utf8Size_pos
        -- the token at the front is another one, so it ends in front of the letter
        have ht : t ∈ more := by
          rcases List.mem_cons.1 ht with rfl | ht
          · exact absurd hstart (by show offset ≠ _; omega)
          · exact ht
        have hstop := (start_le_of_mem hmore t ht).trans_eq hstart
        have hbytes : Text.byteLength ((c :: (f ++ a :: x)).take n) ≤ Text.byteLength (c :: f) := by
          rw [Text.byteLength_cons]
          omega
        have hn : n ≤ f.length + 1 := length_le_of_byteLength_le hbytes
        rw [scanFrom_front_token ha hblank hfirst hn] at h
        obtain ⟨more', hmore', heq⟩ := exists_of_map_eq_ok h
        rw [(List.cons.inj heq).2] at ht
        have hsplit := congrArg Text.byteLength (take_append_drop_of_pos (first_pos hfirst) c f)
        rw [Text.byteLength_append, Text.byteLength_cons c f] at hsplit
        obtain ⟨before, hbefore⟩ := ih (f.drop (n - 1)).length
          (by rw [List.length_drop]; omega) hmore' ht (by omega) rfl
        refine ⟨⟨token, offset, offset + Text.byteLength ((c :: f).take n)⟩ :: before, fun y => ?_⟩
        rw [List.cons_append, scanFrom_front_token ha hblank hfirst hn, hbefore, Nat.add_assoc, hsplit]
        cases scanFrom (offset + (c.utf8Size + Text.byteLength f)) (a :: y) with
        | error e => rfl
        | ok rest => rfl

end

end RubyLint.Pattern.Token
