import Mathlib.Data.List.TakeWhile
import RubyLint.Proofs.Pattern.Lexing
import RubyLint.Proofs.Text.Slice

/-!
# Tokens and blanks make up a pattern

What the scanner cuts off is a token by itself: it is read in the same way with nothing behind it, for
each shape of token, and so no character of the text is lost between two tokens but blanks.

* `takeWord_take`, `takeString_take`, `takeSymbol_take`, `takeNumber_take`, `takePercent_take`   for the
                           shapes of tokens;
* `first_take`             for the token at the front;
* `scanFrom_cuts`          one token after the other, with blanks in front of each;
* `scan_covers`            the tokens of a text, and where a fault is reported.
-/

namespace RubyLint.Pattern.Token

section
variable {c : Char} {cs : List Char} {n : Nat}

/-! ## runs of characters -/

theorem takeWhile_take_of_le {p : Char → Bool} (h : (cs.takeWhile p).length ≤ n) :
    (cs.take n).takeWhile p = cs.takeWhile p := by
  rw [← List.take_takeWhile, List.take_of_length_le h]

theorem head?_take_of_pos (h : 0 < n) (cs : List Char) : (cs.take n).head? = cs.head? := by
  rw [List.head?_take, if_neg (Nat.pos_iff_ne_zero.1 h)]

theorem isPrefixOf_of_take {op : List Char} (h : op.isPrefixOf (cs.take n) = true) :
    op.isPrefixOf cs = true :=
  List.isPrefixOf_iff_prefix.2 ((List.isPrefixOf_iff_prefix.1 h).trans (List.take_prefix n cs))

/-! ## the shapes of tokens -/

theorem takeWord_append {w rest : List Char} (hw : ∀ a ∈ w, isWordChar a = true)
    (hrest : ∀ a ∈ rest.head?, isWordChar a = false) : takeWord (w ++ rest) =
      if (w.head? != some '_' && rest.head? == some '?') = true then w ++ ['?'] else w := by
  have hrun : (w ++ rest).takeWhile isWordChar = w := by
    rw [List.takeWhile_append_of_pos hw]
    cases rest with
    | nil => exact List.append_nil w
    | cons a rest =>
      rw [List.takeWhile_cons_of_neg (by rw [hrest a rfl]; exact Bool.false_ne_true), List.append_nil]
  unfold takeWord
  rw [hrun]
  dsimp only
  rw [List.drop_left]

theorem takeWord_take (cs : List Char) : (takeWord cs).length ≤ cs.length ∧
    takeWord (cs.take (takeWord cs).length) = takeWord cs := by
  have hw : ∀ a ∈ cs.takeWhile isWordChar, isWordChar a = true := fun _ => List.mem_takeWhile_imp
  have hrest : ∀ a ∈ (cs.dropWhile isWordChar).head?, isWordChar a = false := by
    have hnot := List.head?_dropWhile_not isWordChar cs
    intro a ha
    rw [Option.mem_def.1 ha] at hnot
    exact hnot
  rw [← List.takeWhile_append_dropWhile (p := isWordChar) (l := cs)]
  generalize cs.takeWhile isWordChar = w at hw
  generalize cs.dropWhile isWordChar = rest at hrest
  rw [takeWord_append hw hrest]
  split
  · next hmark =>
    obtain ⟨hfirst, hhead⟩ := Bool.and_eq_true_iff.1 hmark
    obtain ⟨rest, rfl⟩ := List.head?_eq_some_iff.1 (beq_iff_eq.1 hhead)
    have hcut : w ++ '?' :: rest = (w ++ ['?']) ++ rest := List.append_cons w '?' rest
    rw [hcut, List.take_left]
    refine ⟨by simp, ?_⟩
    rw [takeWord_append hw (by rintro a ⟨⟩; rfl), hfirst]
    rfl
  · rw [List.take_left]
    refine ⟨by simp, ?_⟩
    have hend : takeWord (w ++ []) = _ := takeWord_append hw nofun
    rwa [List.append_nil, if_neg (by simp)] at hend

theorem length_le_of_takeString {text : List Char} (h : takeString cs = some (text, n)) :
    n ≤ cs.length := by
  induction cs using takeString.induct generalizing text n with
  | case1 => cases h
  | case2 cs =>
    cases h
    exact Nat.succ_le_succ (Nat.zero_le _)
  | case3 => cases h
  | case4 d cs ih =>
    obtain ⟨⟨text', m⟩, hm, heq⟩ := Option.map_eq_some_iff.1 h
    cases heq
    exact Nat.add_le_add_right (ih hm) 2
  | case5 d cs hquote hslash hslash' ih =>
    have hne : d ≠ '\\' := fun hd => by
      cases cs with
      | nil => exact hslash hd rfl
      | cons => exact hslash' _ _ hd rfl
    rw [takeString_plain hquote hne] at h
    obtain ⟨⟨text', m⟩, hm, heq⟩ := Option.map_eq_some_iff.1 h
    cases heq
    exact Nat.succ_le_succ (ih hm)

theorem takeString_take {text : List Char} (h : takeString cs = some (text, n)) :
    n ≤ cs.length ∧ takeString (cs.take n) = some (text, n) := by
  have hle := length_le_of_takeString h
  rw [← List.take_append_drop n cs] at h
  have hfront := takeString_congr h (by rw [List.length_take]; omega) []
  rw [List.append_nil] at hfront
  exact ⟨hle, hfront⟩

theorem symbolMark_take (cs : List Char) :
    symbolMark cs ≤ cs.length ∧ symbolMark (cs.take (symbolMark cs)) = symbolMark cs := by
  cases cs with
  | nil => exact ⟨Nat.le_refl _, rfl⟩
  | cons b cs =>
    rw [symbolMark_cons]
    split
    · exact ⟨Nat.zero_le _, rfl⟩
    · split
      · next hmark =>
        refine ⟨Nat.succ_le_succ (Nat.zero_le _), ?_⟩
        show symbolMark [b] = 1
        rw [symbolMark_cons, if_neg (fun h => nomatch h.2), if_pos hmark]
      · exact ⟨Nat.zero_le _, rfl⟩

/-- the operator at the front is the same where the text is cut behind it -/
theorem operator_take {op : String}
    (h : (operators.find? fun op => op.toList.isPrefixOf cs) = some op) :
    op.length ≤ cs.length ∧ 0 < op.length ∧
      (operators.find? fun o => o.toList.isPrefixOf (cs.take op.length)) = some op := by
  obtain ⟨hpre, before, behind, hops, hbefore⟩ := List.find?_eq_some_iff_append.1 h
  have hpre := List.isPrefixOf_iff_prefix.1 hpre
  have hcut : cs.take op.length = op.toList := by
    rw [← String.length_toList]
    exact (List.prefix_iff_eq_take.1 hpre).symm
  have hpos : ∀ op ∈ operators, 0 < op.length := by decide
  refine ⟨String.length_toList ▸ hpre.length_le, hpos op (List.mem_of_find?_eq_some h), ?_⟩
  refine List.find?_eq_some_iff_append.2 ⟨?_, before, behind, hops, fun o ho => ?_⟩
  · rw [hcut]
    exact List.isPrefixOf_iff_prefix.2 (List.prefix_refl _)
  · -- an operator that comes earlier would have been found in the whole text too
    have hnot := hbefore o ho
    rw [Bool.not_eq_true', ← Bool.not_eq_true] at hnot ⊢
    exact fun hfront => hnot (isPrefixOf_of_take hfront)

theorem takeSymbol_word {d : Char} (hquote : d ≠ '\x22') (halpha : (d.isAlpha || d == '_') = true)
    (cs : List Char) : takeSymbol (d :: cs) =
      let w := ((d :: cs).takeWhile isWordChar).length
      let n := w + symbolMark ((d :: cs).drop w)
      some (String.ofList ((d :: cs).take n), n) := by
  rw [takeSymbol, if_neg hquote, if_pos halpha]

theorem takeSymbol_operator {d : Char} (hquote : d ≠ '\x22') (halpha : ¬ (d.isAlpha || d == '_') = true)
    (cs : List Char) : takeSymbol (d :: cs) =
      (operators.find? fun op => op.toList.isPrefixOf (d :: cs)).map fun op => (op, op.length) := by
  rw [takeSymbol, if_neg hquote, if_neg halpha]

theorem takeSymbol_take {name : String} (h : takeSymbol cs = some (name, n)) :
    n ≤ cs.length ∧ takeSymbol (cs.take n) = some (name, n) := by
  cases cs with
  | nil => cases h
  | cons d cs =>
    by_cases hquote : d = '\x22'
    · rw [takeSymbol, if_pos hquote] at h
      obtain ⟨⟨text, m⟩, hm, heq⟩ := Option.map_eq_some_iff.1 h
      cases heq
      obtain ⟨hle, hfront⟩ := takeString_take hm
      refine ⟨Nat.succ_le_succ hle, ?_⟩
      rw [List.take_succ_cons, takeSymbol, if_pos hquote, hfront]
      rfl
    by_cases halpha : (d.isAlpha || d == '_') = true
    · rw [takeSymbol_word hquote halpha] at h
      obtain ⟨hname, hlength⟩ := Prod.mk.inj (Option.some.inj h)
      have hrun := (List.takeWhile_prefix isWordChar (l := d :: cs)).length_le
      have hpos : 0 < ((d :: cs).takeWhile isWordChar).length := by
        rw [List.takeWhile_cons_of_pos (isWordChar_of_isAlpha halpha)]
        exact Nat.succ_pos _
      obtain ⟨hmark, hfront⟩ :=
        symbolMark_take ((d :: cs).drop ((d :: cs).takeWhile isWordChar).length)
      rw [List.length_drop] at hmark
      rw [hlength] at hname
      refine ⟨by omega, ?_⟩
      obtain ⟨k, rfl⟩ := Nat.exists_eq_succ_of_ne_zero (show n ≠ 0 by omega)
      rw [List.take_succ_cons, takeSymbol_word hquote halpha, ← List.take_succ_cons]
      dsimp only
      have hbehind : k.succ - ((d :: cs).takeWhile isWordChar).length =
          symbolMark ((d :: cs).drop ((d :: cs).takeWhile isWordChar).length) := by omega
      rw [takeWhile_take_of_le (by omega), List.drop_take, hbehind, hfront, hlength, List.take_take,
        Nat.min_self, hname]
    · rw [takeSymbol_operator hquote halpha] at h
      obtain ⟨op, hop, heq⟩ := Option.map_eq_some_iff.1 h
      obtain ⟨rfl, rfl⟩ := Prod.mk.inj heq
      obtain ⟨hle, hpos, hfront⟩ := operator_take hop
      refine ⟨hle, ?_⟩
      obtain ⟨k, hk⟩ := Nat.exists_eq_succ_of_ne_zero (Nat.pos_iff_ne_zero.1 hpos)
      rw [hk, List.take_succ_cons] at hfront ⊢
      rw [takeSymbol_operator hquote halpha, hfront, Option.map_some, hk]

/-- the figures in front of a point are the same where the text is cut behind them -/
theorem wholeLength_take (h : wholeLength cs ≤ n) :
    wholeLength cs ≤ cs.length ∧ wholeLength (cs.take n) = wholeLength cs := by
  obtain rfl | hn := Nat.eq_zero_or_pos n
  · rw [Nat.le_zero.1 h]
    exact ⟨Nat.zero_le _, rfl⟩
  have hle : (if cs.head? = some '-' then 1 else 0) ≤ cs.length := by
    split
    · next hhead => exact List.length_pos_of_mem (List.mem_of_mem_head? hhead)
    · exact Nat.zero_le _
  unfold wholeLength at h ⊢
  rw [head?_take_of_pos hn]
  generalize (if cs.head? = some '-' then 1 else 0) = sign at h hle
  have hrun := (List.takeWhile_prefix isFigure (l := cs.drop sign)).length_le
  dsimp only at h ⊢
  rw [List.length_drop] at hrun
  rw [List.drop_take, takeWhile_take_of_le (by omega)]
  exact ⟨by omega, rfl⟩

theorem numberLength_take (cs : List Char) : (numberLength cs).1 ≤ cs.length ∧
    numberLength (cs.take (numberLength cs).1) = numberLength cs := by
  have hlength := numberLength_eq cs
  dsimp only at hlength
  split at hlength
  · next hpoint =>
    obtain ⟨hhead, hdigit⟩ := hpoint
    obtain ⟨fs, hfs⟩ := List.head?_eq_some_iff.1 hhead
    rw [hfs, List.tail_cons] at hlength hdigit
    have hrun : 0 < (fs.takeWhile isFigure).length := by
      obtain ⟨d, hd, hfigure⟩ := (Option.any_eq_true _ _).1 hdigit
      obtain ⟨fs, rfl⟩ := List.head?_eq_some_iff.1 hd
      rw [List.takeWhile_cons_of_pos (by rw [isFigure, hfigure, Bool.true_or])]
      exact Nat.succ_pos _
    have hbehind := congrArg List.length hfs
    rw [List.length_drop, List.length_cons] at hbehind
    have hle := (List.takeWhile_prefix isFigure (l := fs)).length_le
    rw [hlength]
    generalize hend : (fs.takeWhile isFigure).length = run at hrun hle
    have hroom : wholeLength cs ≤ wholeLength cs + 1 + run := by omega
    obtain ⟨-, hwhole⟩ := wholeLength_take hroom
    have hcut : (cs.take (wholeLength cs + 1 + run)).drop (wholeLength cs) = '.' :: fs.take run := by
      rw [List.drop_take, hfs, Nat.add_assoc, Nat.add_sub_cancel_left, Nat.add_comm 1 run,
        List.take_succ_cons]
    refine ⟨by omega, ?_⟩
    rw [numberLength_eq, hwhole]
    dsimp only
    rw [hcut, List.tail_cons, head?_take_of_pos hrun, takeWhile_take_of_le hend.le, hend,
      if_pos ⟨rfl, hdigit⟩]
  · rw [hlength]
    obtain ⟨hle, hwhole⟩ := wholeLength_take (Nat.le_refl (wholeLength cs))
    refine ⟨hle, ?_⟩
    rw [numberLength_eq, hwhole]
    dsimp only
    rw [List.drop_take, Nat.sub_self, if_neg nofun]

theorem takeNumber_take {t : Token} (h : takeNumber cs = .ok (t, n)) :
    n ≤ cs.length ∧ takeNumber (cs.take n) = .ok (t, n) := by
  obtain rfl := length_of_takeNumber h
  obtain ⟨hle, hlength⟩ := numberLength_take cs
  refine ⟨hle, ?_⟩
  rw [← h]
  unfold takeNumber
  rw [hlength]
  dsimp only
  rw [List.take_take, Nat.min_self]

theorem takePercent_take {t : Token} (h : takePercent cs = .ok (t, n + 1)) :
    n ≤ cs.length ∧ takePercent (cs.take n) = .ok (t, n + 1) := by
  obtain rfl := Nat.succ.inj (length_of_takePercent h)
  refine ⟨(List.takeWhile_prefix isWordChar).length_le, ?_⟩
  rw [← h]
  unfold takePercent
  rw [takeWhile_take_of_le (Nat.le_refl _)]

/-! ## the token at the front -/

theorem one_lt_numberLength (h : cs.head?.any Char.isDigit = true) :
    1 < (numberLength ('-' :: cs)).1 := by
  obtain ⟨d, hd, hdigit⟩ := (Option.any_eq_true _ _).1 h
  obtain ⟨cs, rfl⟩ := List.head?_eq_some_iff.1 hd
  refine Nat.lt_of_lt_of_le ?_ (wholeLength_le_numberLength _)
  show 1 < 1 + ((d :: cs).takeWhile isFigure).length
  rw [List.takeWhile_cons_of_pos (by rw [isFigure, hdigit, Bool.true_or]), List.length_cons]
  omega

theorem startsNumber_take
    (h : (c.isDigit || (c == '-' && cs.head?.any Char.isDigit)) = true →
      n + 1 = (numberLength (c :: cs)).1) :
    (c.isDigit || (c == '-' && (cs.take n).head?.any Char.isDigit)) =
      (c.isDigit || (c == '-' && cs.head?.any Char.isDigit)) := by
  by_cases hc : c = '-'
  · subst hc
    cases hdigit : cs.head?.any Char.isDigit with
    | true =>
      have hn := h (by rw [hdigit]; rfl)
      have hlong := one_lt_numberLength hdigit
      rw [head?_take_of_pos (by omega), hdigit]
    | false =>
      rw [List.head?_take]
      split
      · rfl
      · rw [hdigit]
  · rw [beq_eq_false_iff_ne.2 hc]
    rfl

/-- a token is read in the same way with nothing behind it -/
theorem first_take {t : Token} (h : first c cs = .ok (t, n + 1)) :
    n ≤ cs.length ∧ first c (cs.take n) = .ok (t, n + 1) := by
  unfold first at h ⊢
  cases hchar : ofChar? c with
  | some t' =>
    rw [hchar] at h
    cases h
    exact ⟨Nat.zero_le _, rfl⟩
  | none =>
  rw [hchar] at h
  dsimp only at h ⊢
  have hfront : (c :: cs).take (n + 1) = c :: cs.take n := List.take_succ_cons
  by_cases hellipsis : "...".toList.isPrefixOf (c :: cs) = true
  · rw [if_pos hellipsis] at h
    cases h
    obtain ⟨rest, hrest⟩ := List.isPrefixOf_iff_prefix.1 hellipsis
    obtain ⟨rfl, rfl⟩ := List.cons.inj hrest
    exact ⟨Nat.le_add_left 2 rest.length, rfl⟩
  have hdots : ¬ "...".toList.isPrefixOf (c :: cs.take n) = true := by
    rw [← hfront]
    exact fun hdots => hellipsis (isPrefixOf_of_take hdots)
  rw [if_neg hellipsis] at h
  rw [if_neg hdots]
  by_cases hcolon : c = ':'
  · rw [if_pos hcolon, fromOption_eq_ok] at h ⊢
    obtain ⟨⟨name, m⟩, hm, heq⟩ := Option.map_eq_some_iff.1 h
    cases heq
    obtain ⟨hle, hsymbol⟩ := takeSymbol_take hm
    exact ⟨hle, Option.map_eq_some_iff.2 ⟨_, hsymbol, rfl⟩⟩
  rw [if_neg hcolon] at h ⊢
  by_cases hquote : c = '\x22'
  · rw [if_pos hquote, fromOption_eq_ok] at h ⊢
    obtain ⟨⟨text, m⟩, hm, heq⟩ := Option.map_eq_some_iff.1 h
    cases heq
    obtain ⟨hle, hstring⟩ := takeString_take hm
    exact ⟨hle, Option.map_eq_some_iff.2 ⟨_, hstring, rfl⟩⟩
  rw [if_neg hquote] at h ⊢
  have hstart : (c.isDigit || (c == '-' && cs.head?.any Char.isDigit)) = true →
      n + 1 = (numberLength (c :: cs)).1 := fun hnumber => by
    rw [if_pos hnumber] at h
    exact length_of_takeNumber h
  rw [startsNumber_take hstart]
  by_cases hnumber : (c.isDigit || (c == '-' && cs.head?.any Char.isDigit)) = true
  · rw [if_pos hnumber] at h ⊢
    obtain ⟨hle, hread⟩ := takeNumber_take h
    rw [hfront] at hread
    exact ⟨Nat.le_of_succ_le_succ hle, hread⟩
  rw [if_neg hnumber] at h ⊢
  by_cases hpercent : c = '%'
  · rw [if_pos hpercent] at h ⊢
    exact takePercent_take h
  rw [if_neg hpercent] at h ⊢
  by_cases hsharp : c = '#'
  · rw [if_pos hsharp] at h ⊢
    have hlength : n = (takeWord cs).length := by
      split at h
      · cases h
      · cases h
        rfl
    subst hlength
    obtain ⟨hle, hword⟩ := takeWord_take cs
    rw [hword]
    exact ⟨hle, h⟩
  rw [if_neg hsharp] at h ⊢
  by_cases hupper : c.isUpper = true
  · rw [if_pos hupper] at h ⊢
    obtain ⟨ht, hlength⟩ := Prod.mk.inj (Except.ok.inj h)
    have hrun := (List.takeWhile_prefix isWordChar (l := c :: cs)).length_le
    rw [hlength] at hrun
    rw [← hfront, takeWhile_take_of_le (Nat.le_of_eq hlength)]
    exact ⟨Nat.le_of_succ_le_succ hrun, h⟩
  rw [if_neg hupper] at h ⊢
  by_cases hlower : (c.isLower || c == '_') = true
  · rw [if_pos hlower] at h ⊢
    obtain ⟨ht, hlength⟩ := Prod.mk.inj (Except.ok.inj h)
    obtain ⟨hle, hword⟩ := takeWord_take (c :: cs)
    rw [hlength] at hle hword
    rw [← hfront, hword]
    exact ⟨Nat.le_of_succ_le_succ hle, h⟩
  · rw [if_neg hlower] at h
    cases h

theorem scan_take {t : Token} (hblank : Text.isBlank c = false) (h : first c cs = .ok (t, n + 1)) :
    scan ((c :: cs).take (n + 1)) = .ok [⟨t, 0, Text.byteLength ((c :: cs).take (n + 1))⟩] := by
  have hnothing : ∀ offset, scanFrom offset [] = .ok [] := fun offset => by rw [scanFrom.eq_def]
  rw [List.take_succ_cons, scan, scanFrom_token hblank (first_take h).2, List.take_succ_cons,
    List.take_take, Nat.min_self, Nat.add_sub_cancel, List.drop_take_self, hnothing, Nat.zero_add]
  rfl

end

/-! ## the whole text -/

inductive Cuts : Nat → List Char → List Placed → Prop
  | blanks {offset : Nat} {gap : List Char} (hgap : ∀ c ∈ gap, Text.isBlank c = true) :
    Cuts offset gap []
  | token {offset : Nat} {gap piece rest : List Char} {t : Token} {more : List Placed}
    (hgap : ∀ c ∈ gap, Text.isBlank c = true) (hpiece : piece ≠ [])
    (halone : scan piece = .ok [⟨t, 0, Text.byteLength piece⟩])
    (hrest : Cuts (offset + Text.byteLength gap + Text.byteLength piece) rest more) :
    Cuts offset (gap ++ (piece ++ rest))
      (⟨t, offset + Text.byteLength gap,
        offset + Text.byteLength gap + Text.byteLength piece⟩ :: more)

section
variable {offset : Nat} {cs : List Char} {tokens : List Placed}

theorem Cuts.blank {c : Char} (hc : Text.isBlank c = true)
    (h : Cuts (offset + c.utf8Size) cs tokens) : Cuts offset (c :: cs) tokens := by
  cases h with
  | blanks hgap => exact .blanks (List.forall_mem_cons.2 ⟨hc, hgap⟩)
  | @token _ gap piece rest t more hgap hpiece halone hrest =>
    rw [Nat.add_assoc offset, ← Text.byteLength_cons] at hrest ⊢
    have hwider : ∀ d ∈ c :: gap, Text.isBlank d = true := List.forall_mem_cons.2 ⟨hc, hgap⟩
    exact .token hwider hpiece halone hrest

/-- **One token after the other.**  Blanks and tokens in turn make up a text that is scanned. -/
theorem scanFrom_cuts (h : scanFrom offset cs = .ok tokens) : Cuts offset cs tokens := by
  fun_induction scanFrom offset cs generalizing tokens with
  | case1 offset =>
    cases h
    exact .blanks (List.forall_mem_nil _)
  | case2 offset c rest hblank ih => exact (ih h).blank hblank
  | case3 offset c rest hblank fault hfirst => cases h
  | case4 offset c rest hblank token n hfirst stop e hrest => cases h
  | case5 offset c rest hblank token n hfirst stop more hrest =>
    rename_i ih
    cases h
    obtain ⟨k, rfl⟩ := Nat.exists_eq_succ_of_ne_zero (Nat.pos_iff_ne_zero.1 (first_pos hfirst))
    have halone := scan_take (Bool.not_eq_true _ ▸ hblank) hfirst
    have htoken := @Cuts.token offset [] _ _ _ _ (List.forall_mem_nil _) (List.cons_ne_nil c _) halone
      (ih hrest)
    rw [List.nil_append, ← List.take_succ_cons, take_append_drop_of_pos (Nat.succ_pos k)] at htoken
    exact htoken

/-- a fault is reported at a character that is no blank, and is what this character comes to -/
theorem exists_of_scanFrom_error {e : PatternError} (h : scanFrom offset cs = .error e) :
    ∃ front c back, cs = front ++ c :: back ∧ Text.isBlank c = false ∧
      e.offset = offset + Text.byteLength front ∧ first c back = .error e.fault := by
  fun_induction scanFrom offset cs with
  | case1 offset => cases h
  | case2 offset c rest hblank ih =>
    obtain ⟨front, d, back, rfl, hd, hoffset, hfirst⟩ := ih h
    exact ⟨c :: front, d, back, rfl, hd, by rw [hoffset, Text.byteLength_cons, Nat.add_assoc], hfirst⟩
  | case3 offset c rest hblank fault hfirst =>
    cases h
    exact ⟨[], c, rest, rfl, Bool.not_eq_true _ ▸ hblank, rfl, hfirst⟩
  | case4 offset c rest hblank token n hfirst stop e hrest =>
    rename_i ih
    cases h
    obtain ⟨front, d, back, hcut, hd, hoffset, hfault⟩ := ih hrest
    refine ⟨(c :: rest).take n ++ front, d, back, ?_, hd, ?_, hfault⟩
    · rw [List.append_assoc, ← hcut, take_append_drop_of_pos (first_pos hfirst)]
    · rw [hoffset, Text.byteLength_append, ← Nat.add_assoc]
  | case5 offset c rest hblank token n hfirst stop more hrest => cases h

/-! ## the places of the tokens -/

theorem Cuts.exists_piece (h : Cuts offset cs tokens) {p : Placed} (hp : p ∈ tokens) :
    ∃ front piece back, cs = front ++ (piece ++ back) ∧ p.start = offset + Text.byteLength front ∧
      p.stop = p.start + Text.byteLength piece ∧ piece ≠ [] ∧
      scan piece = .ok [⟨p.token, 0, Text.byteLength piece⟩] := by
  induction h with
  | blanks => cases hp
  | @token offset gap piece rest t more hgap hpiece halone hrest ih =>
    rcases List.mem_cons.1 hp with rfl | hp
    · exact ⟨gap, piece, rest, rfl, rfl, rfl, hpiece, halone⟩
    · obtain ⟨front, piece', back, rfl, hstart, hp⟩ := ih hp
      refine ⟨gap ++ (piece ++ front), piece', back, ?_, ?_, hp⟩
      · simp only [List.append_assoc]
      · rw [hstart, Text.byteLength_append, Text.byteLength_append]
        omega

theorem Cuts.pairwise (h : Cuts offset cs tokens) : tokens.Pairwise fun p q => p.stop ≤ q.start := by
  induction h with
  | blanks => exact .nil
  | token hgap hpiece halone hrest ih =>
    refine List.pairwise_cons.2 ⟨fun q hq => ?_, ih⟩
    obtain ⟨front, _, _, -, hstart, -⟩ := hrest.exists_piece hq
    rw [hstart]
    exact Nat.le_add_right _ _

/-- a character of a text that is put together belongs to the first part or to the second -/
theorem cut_cases {f x front back : List Char} {c : Char} (h : f ++ x = front ++ c :: back) :
    (∃ f', f = front ++ c :: f') ∨ ∃ front', front = f ++ front' ∧ x = front' ++ c :: back := by
  rcases List.append_eq_append_iff.1 h with ⟨front', hfront, hx⟩ | ⟨f', hf, hback⟩
  · exact .inr ⟨front', hfront, hx⟩
  · cases f' with
    | nil => exact .inr ⟨[], by rw [hf, List.append_nil, List.append_nil], hback.symm⟩
    | cons d f' =>
      obtain ⟨rfl, -⟩ := List.cons.inj hback
      exact .inl ⟨f', hf⟩

theorem Cuts.exists_around (h : Cuts offset cs tokens) {front back : List Char} {c : Char}
    (hcs : cs = front ++ c :: back) (hc : Text.isBlank c = false) :
    ∃ p ∈ tokens, p.start ≤ offset + Text.byteLength front ∧
      offset + Text.byteLength front + c.utf8Size ≤ p.stop := by
  have hnot : ∀ {gap : List Char}, (∀ d ∈ gap, Text.isBlank d = true) → c ∉ gap := fun hgap hmem => by
    rw [hgap c hmem] at hc
    cases hc
  induction h generalizing front with
  | blanks hgap => exact absurd (hcs ▸ List.mem_append_right _ List.mem_cons_self) (hnot hgap)
  | @token offset gap piece rest t more hgap hpiece halone hrest ih =>
    rcases cut_cases hcs with ⟨f', hin⟩ | ⟨front', rfl, hcut⟩
    · exact absurd (hin ▸ List.mem_append_right _ List.mem_cons_self) (hnot hgap)
    rcases cut_cases hcut with ⟨f', rfl⟩ | ⟨front', rfl, hbehind⟩
    · refine ⟨_, List.mem_cons_self, ?_, ?_⟩
      · rw [Text.byteLength_append gap]
        show offset + Text.byteLength gap ≤ _
        omega
      · rw [Text.byteLength_append gap]
        show _ ≤ offset + Text.byteLength gap + Text.byteLength (front' ++ c :: f')
        rw [Text.byteLength_append, Text.byteLength_cons]
        omega
    · obtain ⟨p, hp, hplace⟩ := ih hbehind
      refine ⟨p, List.mem_cons_of_mem _ hp, ?_⟩
      rwa [Text.byteLength_append, Text.byteLength_append, ← Nat.add_assoc, ← Nat.add_assoc]

end

/-- the tokens stand one behind the other in the text, and only blanks stand outside; each is the only
token of its own text -/
structure Covers (text : List Char) (tokens : List Placed) : Prop where
  nonempty : ∀ p ∈ tokens, p.start < p.stop
  inOrder : tokens.Pairwise fun p q => p.stop ≤ q.start
  boundaries : ∀ p ∈ tokens, Text.isBoundary text p.start = true ∧ Text.isBoundary text p.stop = true
  blanksOutside : ∀ front c back, text = front ++ c :: back → Text.isBlank c = false →
    ∃ p ∈ tokens, p.start ≤ Text.byteLength front ∧ Text.byteLength front + c.utf8Size ≤ p.stop
  alone : ∀ p ∈ tokens, ∃ piece, Text.slice text p.start p.stop = some piece ∧
    scan piece = .ok [⟨p.token, 0, Text.byteLength piece⟩]

/-- **The tokens of a text.**  If the text is scanned, its tokens cover it but for the blanks between
them; if not, the fault is reported at the start of a character that is no blank, where no token can be
read. -/
theorem scan_covers (text : List Char) :
    (∀ tokens, scan text = .ok tokens → Covers text tokens) ∧
    ∀ e, scan text = .error e → ∃ front c back, text = front ++ c :: back ∧
      Text.isBlank c = false ∧ e.offset = Text.byteLength front ∧ first c back = .error e.fault := by
  refine ⟨fun tokens h => ?_, fun e h => ?_⟩
  · have hcuts := scanFrom_cuts h
    have hslice : ∀ p ∈ tokens, ∃ piece, Text.slice text p.start p.stop = some piece ∧ piece ≠ [] ∧
        p.stop = p.start + Text.byteLength piece ∧
        scan piece = .ok [⟨p.token, 0, Text.byteLength piece⟩] := fun p hp => by
      obtain ⟨front, piece, back, htext, hstart, hstop, hpiece, halone⟩ := hcuts.exists_piece hp
      rw [Nat.zero_add] at hstart
      exact ⟨piece, Text.slice_eq_some_iff.2 ⟨front, back, htext, hstart.symm, hstop.symm⟩, hpiece,
        hstop, halone⟩
    refine ⟨fun p hp => ?_, hcuts.pairwise, fun p hp => ?_, fun front c back htext hc => ?_,
      fun p hp => ?_⟩
    · obtain ⟨piece, -, hpiece, hstop, -⟩ := hslice p hp
      have hlength := mt Text.eq_nil_of_byteLength hpiece
      omega
    · obtain ⟨piece, hslice, -⟩ := hslice p hp
      exact (Text.isSome_slice_iff.1 (Option.isSome_of_eq_some hslice)).2
    · have haround := hcuts.exists_around htext hc
      rwa [Nat.zero_add] at haround
    · obtain ⟨piece, hslice, -, -, halone⟩ := hslice p hp
      exact ⟨piece, hslice, halone⟩
  · have hfault := exists_of_scanFrom_error h
    simpa only [Nat.zero_add] using hfault

/-- a text in quotes with a blank in it and a character of two bytes, a mark behind it, a symbol -/
def quotedTokens : List Placed := [⟨.str "é b", 0, 6⟩, ⟨.question, 6, 7⟩, ⟨.sym "[]=", 8, 12⟩]

/-- The blank in quotes belongs to a token; the arrow behind a symbol is no token. -/
theorem quotedTokens_cover :
    scan "\x22é b\x22? :[]=".toList = .ok quotedTokens ∧
    Covers "\x22é b\x22? :[]=".toList quotedTokens ∧
    scan ":a=> b".toList = .error ⟨.unexpectedChar '=', 2⟩ ∧
    ∃ front c back, ":a=> b".toList = front ++ c :: back ∧ Text.isBlank c = false ∧
      Text.byteLength front = 2 ∧ first c back = .error (.unexpectedChar '=') := by
  have hscan : scan "\x22é b\x22? :[]=".toList = .ok quotedTokens := by decide +kernel
  have hfault : scan ":a=> b".toList = .error ⟨.unexpectedChar '=', 2⟩ := by decide +kernel
  obtain ⟨front, c, back, htext, hc, hoffset, hfirst⟩ := (scan_covers _).2 _ hfault
  exact ⟨hscan, (scan_covers _).1 _ hscan, hfault, front, c, back, htext, hc, hoffset.symm, hfirst⟩

end RubyLint.Pattern.Token
