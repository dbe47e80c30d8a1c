import Mathlib.Data.List.Forall2
import RubyLint.Pattern.Compile
import RubyLint.Proofs.Pattern.Lexing
import RubyLint.Proofs.Pattern.Named

/-!
# Hyphens in the names of kinds

The lookup of kinds takes a hyphen for an underscore.  But a word of a pattern ends in front of a hyphen, and
no token opens with one that has a letter behind it.

* `Hyphenates`               hyphens in the place of some underscores;
* `Kind.ofName?_of_hyphenates`   the lookup finds the same kind;
* `compile_of_hyphenates`    the pattern does not compile any more;
* `compile_blockPass`        as for one name alone.
-/

namespace RubyLint

/-- the text with hyphens in the place of some underscores -/
def Hyphenates (name word : List Char) : Prop :=
  List.Forall₂ (fun c d => d = c ∨ c = '_' ∧ d = '-') name word

section
variable {name word : List Char}

theorem hyphenates_self (name : List Char) : Hyphenates name name :=
  List.forall₂_same.2 fun _ _ => .inl rfl

theorem Hyphenates.exists_first (h : Hyphenates name word) (hne : word ≠ name) :
    ∃ front back back', name = front ++ '_' :: back ∧ word = front ++ '-' :: back' ∧
      Hyphenates back back' := by
  induction h with
  | nil => exact absurd rfl hne
  | @cons c d name word hcd hbehind ih =>
    rcases hcd with rfl | ⟨rfl, rfl⟩
    · obtain ⟨front, back, back', rfl, rfl, hback⟩ := ih fun heq => hne (heq ▸ rfl)
      exact ⟨d :: front, back, back', rfl, rfl, hback⟩
    · exact ⟨[], name, word, rfl, rfl, hbehind⟩

end

namespace Kind

variable {kind : Kind} {word : List Char}

theorem underscored_of_hyphenates {name : String} (hno : '-' ∉ name.toList)
    (h : Hyphenates name.toList word) : underscored (String.ofList word) = name := by
  have hmap : ∀ {name word : List Char}, '-' ∉ name → Hyphenates name word →
      word.map (fun c => if c = '-' then '_' else c) = name := by
    intro name word hno h
    induction h with
    | nil => rfl
    | @cons c d name word hcd hbehind ih =>
      rw [List.mem_cons, not_or] at hno
      rw [List.map_cons, ih hno.2]
      rcases hcd with rfl | ⟨rfl, rfl⟩
      · rw [if_neg fun hd => hno.1 hd.symm]
      · rfl
  unfold underscored
  rw [String.toList_ofList, hmap hno h, String.ofList_toList]

theorem hyphen_not_mem_name (h : kind ∈ named) : '-' ∉ kind.name.toList := by
  have hall : ∀ kind ∈ named, '-' ∉ kind.name.toList := by decide +kernel
  exact hall kind h

theorem ofName?_eq_of_underscored {name name' : String} (h : underscored name = underscored name') :
    ofName? name = ofName? name' := by
  unfold ofName?
  rw [h]

/-- the lookup finds the kind by its name with hyphens -/
theorem ofName?_of_hyphenates (hkind : kind ∈ named) (h : Hyphenates kind.name.toList word) :
    ofName? (String.ofList word) = some kind := by
  have hno := hyphen_not_mem_name hkind
  have hself := underscored_of_hyphenates hno (hyphenates_self _)
  rw [String.ofList_toList] at hself
  have hsame := (underscored_of_hyphenates hno h).trans hself.symm
  exact (ofName?_eq_of_underscored hsame).trans (ofName?_name_of_mem kind hkind)

/-- letters stand on both sides of an underscore in a name, and it is the first that is no letter -/
theorem letters_of_underscore (hkind : kind ∈ named) {front back : List Char}
    (h : kind.name.toList = front ++ '_' :: back) :
    (∃ a rest, front = a :: rest ∧ a.isLower = true) ∧ (∀ c ∈ front, Pattern.Token.isWordChar c = true) ∧
      ∃ b rest, back = b :: rest ∧ b.isLower = true := by
  have hall : ∀ kind ∈ named, ∀ i < kind.name.toList.length, kind.name.toList[i]? = some '_' →
      (kind.name.toList.take i).head?.any Char.isLower = true ∧
      (kind.name.toList.take i).all Pattern.Token.isWordChar = true ∧
      (kind.name.toList.drop (i + 1)).head?.any Char.isLower = true := by decide +kernel
  have hlength : front.length < kind.name.toList.length := by
    rw [h, List.length_append, List.length_cons]
    omega
  have hat : kind.name.toList[front.length]? = some '_' := by
    rw [h, List.getElem?_append_right (Nat.le_refl _), Nat.sub_self]
    rfl
  obtain ⟨hfirst, hword, hbehind⟩ := hall kind hkind front.length hlength hat
  rw [h, List.take_left] at hfirst hword
  rw [h, ← List.drop_drop, List.drop_left] at hbehind
  obtain ⟨a, ha, hfirst⟩ := (Option.any_eq_true _ _).1 hfirst
  obtain ⟨rest, rfl⟩ := List.head?_eq_some_iff.1 ha
  obtain ⟨b, hb, hbehind⟩ := (Option.any_eq_true _ _).1 hbehind
  obtain ⟨rest', hback⟩ := List.head?_eq_some_iff.1 hb
  exact ⟨⟨a, rest, rfl, hfirst⟩, List.all_eq_true.1 hword, b, rest', hback, hbehind⟩

end Kind

namespace Pattern

/-! ## a word in front of a hyphen -/

namespace Token

variable {a b : Char} {w cs : List Char}

theorem ofChar?_of_isLower (ha : a.isLower = true) : ofChar? a = none := by
  cases h : ofChar? a with
  | none => rfl
  | some t =>
    unfold ofChar? at h
    split at h <;> first | cases ha | cases h

theorem isBlank_of_isLower (ha : a.isLower = true) : Text.isBlank a = false := by
  have hrange : 'a'.toNat ≤ a.toNat ∧ a.toNat ≤ 'z'.toNat := by
    unfold Char.isLower at ha
    rwa [Bool.and_eq_true, decide_eq_true_eq, decide_eq_true_eq] at ha
  unfold Text.isBlank
  grind

theorem isUpper_of_isLower (ha : a.isLower = true) : a.isUpper = false := by
  unfold Char.isLower at ha
  unfold Char.isUpper
  grind

theorem first_of_isLower (ha : a.isLower = true) (cs : List Char) :
    first a cs = .ok (ofWord (takeWord (a :: cs)), (takeWord (a :: cs)).length) := by
  have hdot : ('.' == a) = false := beq_eq_false_iff_ne.2 (ne_of_isLower ha rfl).symm
  have hdots : "...".toList.isPrefixOf (a :: cs) = false := by
    show ('.' == a && _) = false
    rw [hdot, Bool.false_and]
  have hminus : (a == '-') = false := beq_eq_false_iff_ne.2 (ne_of_isLower ha rfl)
  unfold first
  rw [ofChar?_of_isLower ha]
  dsimp only
  rw [hdots, if_neg Bool.false_ne_true, if_neg (ne_of_isLower ha rfl), if_neg (ne_of_isLower ha rfl),
    isDigit_of_isLower ha, hminus, Bool.false_and, Bool.or_false, if_neg Bool.false_ne_true,
    if_neg (ne_of_isLower ha rfl), if_neg (ne_of_isLower ha rfl), isUpper_of_isLower ha,
    if_neg Bool.false_ne_true, ha,
    Bool.true_or, if_pos rfl]

theorem first_hyphen (hb : b.isLower = true) (cs : List Char) :
    first '-' (b :: cs) = .error (.unexpectedChar '-') := by
  have hnumber : ('-'.isDigit || ('-' == '-' && (b :: cs).head?.any Char.isDigit)) = false :=
    isDigit_of_isLower hb
  unfold first
  rw [hnumber]
  rfl

theorem takeWord_hyphen (hw : ∀ c ∈ w, isWordChar c = true) (cs : List Char) :
    takeWord (w ++ '-' :: cs) = w := by
  have hrun : (w ++ '-' :: cs).takeWhile isWordChar = w := by
    rw [takeWhile_of_not rfl, List.takeWhile_eq_self_iff.2 hw]
  unfold takeWord
  rw [hrun]
  dsimp only
  rw [List.drop_left]
  exact if_neg (by simp)

theorem takeWhile_hyphen (hw : ∀ c ∈ w, isWordChar c = true) (cs : List Char) :
    (w ++ '-' :: cs).takeWhile (· != '-') = w := by
  have hno : ∀ c ∈ w, (c != '-') = true := fun c hc =>
    bne_iff_ne.2 fun heq => absurd (heq ▸ hw c hc) (by decide)
  rw [List.takeWhile_append_of_pos hno, List.takeWhile_cons_of_neg (by decide), List.append_nil]

theorem scanFrom_hyphen (ha : a.isLower = true) (hw : ∀ c ∈ a :: w, isWordChar c = true)
    (hb : b.isLower = true) (offset : Nat) (cs : List Char) :
    scanFrom offset (a :: w ++ '-' :: b :: cs) =
      .error ⟨.unexpectedChar '-', offset + Text.byteLength (a :: w)⟩ := by
  have htake := takeWord_hyphen hw (b :: cs)
  have hfirst := first_of_isLower ha (w ++ '-' :: b :: cs)
  rw [← List.cons_append, htake] at hfirst
  rw [List.cons_append, scanFrom_token (isBlank_of_isLower ha) hfirst, ← List.cons_append,
    List.take_left, List.length_cons, Nat.add_sub_cancel, List.drop_left,
    scanFrom_fault rfl (first_hyphen hb cs)]
  rfl

end Token

/-! ## patterns -/

theorem compile_of_scan {cs : List Char} {e : PatternError} (h : Token.scan cs = .error e)
    (env : Environment) : compile (String.ofList cs) env = .error e := by
  unfold compile read
  rw [String.toList_ofList, h]
  rfl

/-- **A hyphen in the name of a kind is no part of the word.**  Where a pattern names a kind, hyphens may be
put in the place of underscores of the name: the lookup of kinds still finds the kind by it.  But the pattern
never compiles, whatever stands behind the name: the word ends in front of the first hyphen, and the hyphen
is no token. -/
theorem compile_of_hyphenates {kind : Kind} {front back word : List Char} {tokens : List Placed}
    {stop : Nat} (hscan : Token.scan (front ++ kind.name.toList ++ back) = .ok tokens)
    (hkind : kind ∈ Kind.named)
    (hmem : ⟨.word kind.name, Text.byteLength front, stop⟩ ∈ tokens)
    (hword : Hyphenates kind.name.toList word) (hne : word ≠ kind.name.toList)
    (back' : List Char) (env : Environment) :
    Kind.ofName? (String.ofList word) = some kind ∧
    compile (String.ofList (front ++ word ++ back')) env = .error
      ⟨.unexpectedChar '-', Text.byteLength (front ++ word.takeWhile (· != '-'))⟩ := by
  refine ⟨Kind.ofName?_of_hyphenates hkind hword, compile_of_scan ?_ env⟩
  obtain ⟨same, behind, behind', hname, rfl, hbehind⟩ := hword.exists_first hne
  obtain ⟨⟨a, w, rfl, ha⟩, hw, b, rest, rfl, hb⟩ := Kind.letters_of_underscore hkind hname
  -- the letter behind the hyphen is that behind the underscore
  cases hbehind with
  | @cons _ d _ rest' hbd hrest =>
  obtain rfl : d = b := hbd.resolve_right fun h => absurd (h.1 ▸ hb) (by decide)
  have htext : front ++ kind.name.toList ++ back = front ++ a :: (w ++ '_' :: d :: rest ++ back) := by
    rw [hname]
    simp
  rw [htext] at hscan
  obtain ⟨before, hbefore⟩ := Token.scanFrom_front ha hscan hmem (Nat.zero_add _).symm
  have hhyphen := Token.scanFrom_hyphen ha hw hb (0 + Text.byteLength front) (rest' ++ back')
  have htext' : front ++ (a :: w ++ '-' :: d :: rest') ++ back' =
      front ++ a :: (w ++ '-' :: d :: (rest' ++ back')) := by
    simp
  unfold Token.scan
  rw [htext', hbefore, Token.takeWhile_hyphen hw, ← List.cons_append, hhyphen, Text.byteLength_append,
    Nat.zero_add]
  rfl

def blockPassTokens : List Placed :=
  [⟨.openParen, 0, 1⟩, ⟨.word "block_pass", 1, 11⟩, ⟨.word "_", 12, 13⟩, ⟨.closeParen, 13, 14⟩]

theorem compile_blockPass_around :
    Token.scan "(block_pass _)".toList = .ok blockPassTokens ∧
    ⟨.word Kind.blockPass.name, 1, 11⟩ ∈ blockPassTokens ∧
    Hyphenates "block_pass".toList "block-pass".toList ∧
    Kind.ofName? (String.ofList "block-pass".toList) = some .blockPass ∧
    compile (String.ofList ("(".toList ++ "block-pass".toList ++ " _)".toList)) .empty =
      .error ⟨.unexpectedChar '-', 6⟩ := by
  have hscan : Token.scan ("(".toList ++ Kind.blockPass.name.toList ++ " _)".toList) =
      .ok blockPassTokens := scan_eq_ok (by decide +kernel)
  have hmem : ⟨.word Kind.blockPass.name, Text.byteLength "(".toList, 11⟩ ∈ blockPassTokens := by
    decide +kernel
  have hword : Hyphenates Kind.blockPass.name.toList "block-pass".toList := by
    unfold Hyphenates
    decide
  obtain ⟨hfound, hcompile⟩ := compile_of_hyphenates hscan (by decide) hmem hword (by decide)
    " _)".toList .empty
  exact ⟨hscan, hmem, hword, hfound, hcompile⟩

/-- One name alone: it is found with the hyphen, but the pattern does not compile. -/
theorem compile_blockPass :
    (compile "block_pass" .empty).isOk = true ∧
    Kind.ofName? "block-pass" = some .blockPass ∧
    compile "block-pass" .empty = .error ⟨.unexpectedChar '-', 5⟩ := by
  refine ⟨isOk_compile (by decide +kernel), by decide +kernel, compile_of_scan ?_ .empty⟩
  have hword : ∀ c ∈ "block".toList, Token.isWordChar c = true := List.all_eq_true.1 (by decide)
  exact Token.scanFrom_hyphen (a := 'b') (b := 'p') (w := "lock".toList) rfl hword rfl 0 _

end Pattern

end RubyLint
