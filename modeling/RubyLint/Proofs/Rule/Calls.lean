import RubyLint.Proofs.Pattern.Reach
import RubyLint.Proofs.Rule.Finding
import RubyLint.Proofs.Rule.Matching
import RubyLint.Proofs.Rule.Reading
import RubyLint.Rule.Number
import RubyLint.Rule.RegexpLiteral

/-!
# The rules about single calls

Most of them replace the whole call by another text, some the name of the call, an argument or the
receiver.  Only `arrayInsert` makes two edits: it replaces the name, and removes the index behind it.
-/

namespace RubyLint

theorem SyntaxTree.WellFormed.encloses_selectorSpan {t : SyntaxTree} (ht : t.WellFormed)
    {n : Node t} (hn : n.Orders n.callParts) : n.Encloses n.selectorSpan := by
  unfold Node.selectorSpan
  cases hselector : n.loc.selector with
  | none => exact ht.encloses_span n
  | some selector => exact ht.encloses_selector hn hselector

theorem Finding.SoundAt.whole {t : SyntaxTree} (ht : t.WellFormed) (n : Node t)
    (message text : String) : (Finding.replacing n.span message n.span text).SoundAt n :=
  .replacing (ht.encloses_span n) (ht.encloses_span n) message text

namespace Rule

open Pattern (Captures Condition Derivation)

section
variable {t : SyntaxTree} {n m : Node t} {caps : Captures t}

/-! ## collections -/

def countOfCollectionCompiled : Pattern.Compiled countOfCollection := .ofText
  (.exactly (.kind .send) [
    .union [.kind .array, .kind .hash,
      .exactly (.kind .send) [.wildcard, .union [.literal (.sym "to_a"), .literal (.sym "to_h")]],
      .exactly (.kind .send) [
        .exactly (.kind .constant) [.builtin .absent,
          .union [.literal (.sym "Array"), .literal (.sym "Hash")]],
        .literal (.sym "[]"), .wildcard]],
    .literal (.sym "count")])
  (by decide +kernel)

theorem sizeVerdict_answers (ht : t.WellFormed) (n : Node t) :
    Verdict.Answers (fun f => f.SoundAt n) (sizeVerdict n) := by
  rw [sizeVerdict]
  split
  · exact .nothing
  · next hmatch =>
    have hfound : countOfCollection.isMatch n = true := by
      cases hcount : countOfCollection.isMatch n with
      | true => rfl
      | false => simp [hcount] at hmatch
    obtain ⟨caps, hm⟩ := Option.isSome_iff_exists.1 hfound
    have hn := (countOfCollectionCompiled.sends ["count"] rfl hm).orders ht (by decide)
    refine .found ?_
    exact .replacing (ht.encloses_selectorSpan hn) (ht.encloses_selectorSpan hn) _ _

theorem size_sound : size.Sound :=
  sound_of_answers (fun _ _ => rfl) fun ht _ n => sizeVerdict_answers ht n

theorem concatVerdict_answers (ht : t.WellFormed) (n : Node t) :
    Verdict.Answers (fun f => f.SoundAt n) (concatVerdict n) := by
  rw [concatVerdict]
  split
  case h_2 => exact .nothing
  split
  case h_2 => exact .nothing
  next receiver _ =>
    split
    case h_2 => exact .nothing
    next array _ =>
      refine .bind (ht.exists_text receiver) fun subject => ?_
      refine .bind (exists_pushArguments ht array) fun arguments => ?_
      exact .found (.whole ht n _ _)

theorem arrayConcatLiteral_sound : arrayConcatLiteral.Sound :=
  sound_of_answers (fun _ _ => rfl) fun ht _ n => concatVerdict_answers ht n

theorem encloses_indexSpan (ht : t.WellFormed) (hn : n.Orders n.callParts) {selector : Span}
    (hselector : n.loc.selector = some selector) {index : Node t} {rest : List (Node t)}
    (harguments : n.arguments = index :: rest) :
    n.Encloses (indexSpan n.loc selector index.span (rest.head?.map Node.span)) ∧
      selector.stop ≤ (indexSpan n.loc selector index.span (rest.head?.map Node.span)).start := by
  have hselector' := ht.encloses_selector hn hselector
  have hindex : index ∈ n.arguments := harguments ▸ List.mem_cons_self
  have hle := hn.selector_le_argument hselector hindex
  have hindex' := ht.encloses_child (Node.mem_childNodes_of_mem_arguments hindex)
  unfold indexSpan
  split
  · next second heq =>
    -- up to the second argument
    obtain ⟨k, hk, rfl⟩ := Option.map_eq_some_iff.1 heq
    have hk : k ∈ rest := List.mem_of_mem_head? hk
    have hsecond : k ∈ n.arguments := harguments ▸ List.mem_cons_of_mem _ hk
    have horder := hn.pairwise_arguments
    rw [harguments] at horder
    have hapart := (List.pairwise_cons.1 horder).1 k hk
    have hk' := ht.encloses_child (Node.mem_childNodes_of_mem_arguments hsecond)
    exact ⟨hindex'.before hk' (Nat.le_trans hindex'.le.2.1 hapart), hle⟩
  · next opening closing _ hopening hclosing =>
    -- the parentheses, with the index in them
    have hopening' := ht.encloses_opening hn hopening
    have hle' : selector.stop ≤ opening.start := hn.selector_le_opening hselector hopening
    exact ⟨hopening'.upTo (ht.encloses_closing hn hclosing), hle'⟩
  · -- all behind the name
    exact ⟨hselector'.behind hindex' (Nat.le_trans hle hindex'.le.2.1), Nat.le_refl _⟩

def insertAtZeroCompiled : Pattern.Compiled insertAtZero := .ofText
  (.around (.kind .send)
    [.wildcard, .literal (.sym "insert"), .exactly (.kind .int) [.literal (.int 0)]]
    .wildcard .anyNumber none [])
  (by decide +kernel)

theorem insertVerdict_answers (ht : t.WellFormed) (n : Node t) :
    Verdict.Answers (fun f => f.SoundAt n) (insertVerdict n) := by
  rw [insertVerdict]
  split
  · exact .nothing
  · next hmatch =>
    have hfound : insertAtZero.isMatch n = true := by simpa using hmatch
    obtain ⟨caps, hm⟩ := Option.isSome_iff_exists.1 hfound
    have hn := (insertAtZeroCompiled.sends ["insert"] rfl hm).orders ht (by decide)
    split
    · next selector index rest hselector harguments =>
      refine .found ?_
      have hselector' := ht.encloses_selector hn hselector
      obtain ⟨hremoved, hle⟩ := encloses_indexSpan ht hn hselector harguments
      have hspan : n.Encloses ⟨selector.start, n.span.stop⟩ :=
        hselector'.between (ht.encloses_span n) (Nat.le_trans hselector'.le.2.1 hselector'.le.2.2)
      exact (Finding.SoundAt.plain hspan _).withCorrection
        (.two hselector' hremoved ⟨Or.inl hle, Or.inl (ht.selector_pos hselector)⟩ _ _)
    · exact .nothing

theorem arrayInsert_sound : arrayInsert.Sound :=
  sound_of_answers (fun _ _ => rfl) fun ht _ n => insertVerdict_answers ht n

theorem intersectionVerdict_answers (ht : t.WellFormed) (n : Node t) :
    Verdict.Answers (fun f => f.SoundAt n) (intersectionVerdict n) := by
  rw [intersectionVerdict]
  split
  case isTrue => exact .nothing
  split
  case h_2 => exact .nothing
  split
  case h_2 => exact .nothing
  next left _ =>
    split
    case h_2 => exact .nothing
    next right _ =>
      split
      case h_2 => exact .nothing
      refine .bind (ht.exists_text left) fun receiver => ?_
      refine .bind (ht.exists_text right) fun argument => ?_
      exact .found (.whole ht n _ _)

theorem intersectionCheckRule_sound : intersectionCheckRule.Sound :=
  sound_of_answers (fun _ _ => rfl) fun ht _ n => intersectionVerdict_answers ht n

theorem pushVerdict_answers (ht : t.WellFormed) (n : Node t) :
    Verdict.Answers (fun f => f.SoundAt n) (pushVerdict n) := by
  rw [pushVerdict]
  split
  case h_2 => exact .nothing
  split
  case h_2 => exact .nothing
  next receiver _ =>
    split
    case h_2 => exact .nothing
    split
    case h_2 => exact .nothing
    next element _ =>
      split
      case isTrue => exact .nothing
      split
      case isTrue => exact .nothing
      refine .bind (exists_operandText ht element) fun operand => ?_
      refine .bind (ht.exists_text receiver) fun subject => ?_
      exact .found (.whole ht n _ _)

theorem arrayPushSingle_sound : arrayPushSingle.Sound :=
  sound_of_answers (fun _ _ => rfl) fun ht _ n => pushVerdict_answers ht n

/-! ## numbers -/

def bigDecimalOfTextCompiled : Pattern.Compiled bigDecimalOfText := .ofText
  (.around (.kind .send)
    [.builtin .absent, .literal (.sym "BigDecimal"), .capture 0 (.kind .str)]
    .wildcard .anyNumber none [])
  (by decide +kernel)

def textToDecimalCompiled : Pattern.Compiled textToDecimal := .ofText
  (.around (.kind .send) [.capture 0 (.kind .str), .literal (.sym "to_d")]
    .wildcard .anyNumber none [])
  (by decide +kernel)

theorem decimalVerdict_answers (ht : t.WellFormed) (n : Node t) :
    Verdict.Answers (fun f => f.SoundAt n) (decimalVerdict n) := by
  rw [decimalVerdict]
  split
  case h_1 string hstring =>
    obtain ⟨caps, hm, hstring⟩ := Option.bind_eq_some_iff.1 hstring
    have hstring' := ht.encloses_covered (bigDecimalOfTextCompiled.covers_of_node? rfl hm hstring)
    split
    case h_2 => exact .nothing
    exact .found (.replacing hstring' hstring' _ _)
  split
  case h_2 => exact .nothing
  next string hstring =>
    obtain ⟨caps, hm, hstring⟩ := Option.bind_eq_some_iff.1 hstring
    have hstring' := ht.encloses_covered (textToDecimalCompiled.covers_of_node? rfl hm hstring)
    split
    case h_2 => exact .nothing
    refine .bind (exists_texts ht n.arguments) fun arguments => ?_
    exact .found (.replacing hstring' (ht.encloses_span n) _ _)

theorem bigDecimalWithNumericArgument_sound : bigDecimalWithNumericArgument.Sound :=
  sound_of_answers (fun _ _ => rfl) fun ht _ n => decimalVerdict_answers ht n

theorem signVerdict_answers (ht : t.WellFormed) (n : Node t) :
    Verdict.Answers (fun f => f.SoundAt n) (signVerdict n) := by
  rw [signVerdict]
  split
  case h_2 => exact .nothing
  split
  case h_2 => exact .nothing
  next receiver _ =>
    split
    case h_2 => exact .nothing
    refine .bind (ht.exists_text receiver) fun subject => ?_
    refine .bind (ht.exists_text n) fun text => ?_
    exact .found (.whole ht n _ _)

theorem numericPredicate_sound : numericPredicate.Sound :=
  sound_of_answers (fun _ _ => rfl) fun ht _ n => signVerdict_answers ht n

/-! ## regular expressions -/

theorem matchVerdict_answers (ht : t.WellFormed) (a : Anchor) (message : String) (n : Node t) :
    Verdict.Answers (fun f => f.SoundAt n) (matchVerdict a message n) := by
  rw [matchVerdict]
  split
  case h_2 => exact .nothing
  split
  case h_2 => exact .nothing
  next operand body _ =>
    refine .bind (ht.exists_text operand) fun subject => ?_
    exact .found (.whole ht n _ _)

theorem matchRule_sound (a : Anchor) (name description message : String) :
    (matchRule a name description message).Sound :=
  sound_of_answers (fun _ _ => rfl) fun ht _ n => matchVerdict_answers ht a message n

def deletionCondition (accepted : String) : Condition :=
  .exactly (.kind .send) [
    .capture 0 (.negation (.builtin .absent)),
    .capture 1 (.union [.literal (.sym "gsub"), .literal (.sym "gsub!"), .literal (.sym "sub"),
      .literal (.sym "sub!")]),
    .exactly (.kind .regexp) [.exactly (.kind .str) [.capture 2 (.external accepted [])],
      .exactly (.kind .regexpOptions) []],
    .capture 3 (.kind .str)]

def deletionAtStartCompiled : Pattern.Compiled deletionAtStart := .ofText
  (deletionCondition "literal_at_start?")
  (by decide +kernel)

def deletionAtEndCompiled : Pattern.Compiled deletionAtEnd := .ofText
  (deletionCondition "literal_at_end?")
  (by decide +kernel)

def deletionMethods : List String := ["gsub", "gsub!", "sub", "sub!"]

theorem deletionVerdict_answers (ht : t.WellFormed) (a : Anchor) {pattern : Pattern}
    (w : Pattern.Compiled pattern) (hw : w.condition.sendsOnly deletionMethods = true)
    (deletion : String) (n : Node t) :
    Verdict.Answers (fun f => f.SoundAt n) (deletionVerdict a pattern deletion n) := by
  rw [deletionVerdict]
  split
  case h_2 => exact .nothing
  next caps hm =>
    split
    case h_2 => exact .nothing
    next receiver _ =>
      split
      case h_2 => exact .nothing
      split
      case h_2 => exact .nothing
      split
      case h_2 => exact .nothing
      split
      case isTrue => exact .nothing
      have hn := (w.sends deletionMethods hw hm).orders ht (by decide)
      refine .bind (ht.exists_text receiver) fun subject => .found ?_
      exact .replacing (ht.encloses_selectorSpan hn) (ht.encloses_span n) _ _

theorem deletionRule_sound (a : Anchor) {pattern : Pattern} (w : Pattern.Compiled pattern)
    (hw : w.condition.sendsOnly deletionMethods = true) (deletion name description : String) :
    (deletionRule a pattern deletion name description).Sound :=
  sound_of_answers (fun _ _ => rfl) fun ht _ n => deletionVerdict_answers ht a w hw deletion n

theorem deletePrefix_sound : deletePrefix.Sound :=
  deletionRule_sound _ deletionAtStartCompiled rfl _ _ _

theorem deleteSuffix_sound : deleteSuffix.Sound :=
  deletionRule_sound _ deletionAtEndCompiled rfl _ _ _

def splitAtRegexpCompiled : Pattern.Compiled splitAtRegexp := .ofText
  (.exactly (.kind .send) [.negation (.builtin .absent), .literal (.sym "split"),
    .capture 0 (.exactly (.kind .regexp) [.exactly (.kind .str) [.wildcard],
      .exactly (.kind .regexpOptions) []])])
  (by decide +kernel)

theorem splitVerdict_answers (ht : t.WellFormed) (n : Node t) :
    Verdict.Answers (fun f => f.SoundAt n) (splitVerdict n) := by
  rw [splitVerdict]
  split
  case h_2 => exact .nothing
  next regexp hregexp =>
    obtain ⟨caps, hm, hregexp⟩ := Option.bind_eq_some_iff.1 hregexp
    have hregexp' := ht.encloses_covered (splitAtRegexpCompiled.covers_of_node? rfl hm hregexp)
    refine .bind (ht.exists_text regexp) fun text => ?_
    split
    case isTrue => exact .nothing
    split
    case h_2 => exact .nothing
    split
    case isTrue => exact .nothing
    exact .found (.replacing hregexp' hregexp' _ _)

theorem redundantSplitRegexpArgument_sound : redundantSplitRegexpArgument.Sound :=
  sound_of_answers (fun _ _ => rfl) fun ht _ n => splitVerdict_answers ht n

end

end Rule

end RubyLint
